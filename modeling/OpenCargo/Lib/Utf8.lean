/-
Module: OpenCargo.Lib.Utf8
Purpose: Texts as UTF-8 bytes: they read back, and ASCII is found in the bytes only where it is in the text.
Trusted boundary: none
Main exports: utf8, fromUtf8, fromUtf8_utf8, infix_of_utf8
-/
import Mathlib

namespace OpenCargo.Lib

/-- `str::as_bytes`. -/
def utf8 (text : List Char) : List UInt8 := text.flatMap String.utf8EncodeChar

/-- `str::from_utf8`. -/
def fromUtf8 (bytes : List UInt8) : Option (List Char) := bytes.toByteArray.utf8Decode?.map Array.toList

@[simp] theorem utf8_nil : utf8 [] = [] := rfl

theorem utf8_cons (c : Char) (text : List Char) : utf8 (c :: text) = String.utf8EncodeChar c ++ utf8 text := rfl

theorem utf8_append (s t : List Char) : utf8 (s ++ t) = utf8 s ++ utf8 t := List.flatMap_append

theorem fromUtf8_utf8 (text : List Char) : fromUtf8 (utf8 text) = some text := by
  have whole : (utf8 text).toByteArray = text.utf8Encode := rfl
  rw [fromUtf8, whole, List.utf8Decode?_utf8Encode]
  rfl

/-! ### ASCII -/

def Ascii (c : Char) : Prop := c.toNat < 128

instance (c : Char) : Decidable (Ascii c) := inferInstanceAs (Decidable (_ < _))

variable {c : Char} {b : UInt8} {s t p : List Char}

theorem utf8EncodeChar_ascii (ascii : Ascii c) : String.utf8EncodeChar c = [UInt8.ofNat c.toNat] := by
  unfold String.utf8EncodeChar
  exact if_pos (Nat.le_of_lt_succ ascii)

/-- No byte of another character is one of ASCII. -/
theorem high_of_mem_utf8EncodeChar (wide : ¬Ascii c) (mem : b ∈ String.utf8EncodeChar c) : 128 ≤ b.toNat := by
  unfold String.utf8EncodeChar at mem
  dsimp only at mem
  split_ifs at mem with one two three
  · exact absurd (Nat.lt_succ_of_le one) wide
  · simp only [List.mem_cons, List.not_mem_nil, or_false] at mem
    rcases mem with rfl | rfl <;> simp only [UInt8.toNat_ofNat'] <;> omega
  · simp only [List.mem_cons, List.not_mem_nil, or_false] at mem
    rcases mem with rfl | rfl | rfl <;> simp only [UInt8.toNat_ofNat'] <;> omega
  · simp only [List.mem_cons, List.not_mem_nil, or_false] at mem
    rcases mem with rfl | rfl | rfl | rfl <;> simp only [UInt8.toNat_ofNat'] <;> omega

theorem toNat_byte (ascii : Ascii c) : (UInt8.ofNat c.toNat).toNat = c.toNat := by
  rw [UInt8.toNat_ofNat', Nat.mod_eq_of_lt (Nat.lt_trans ascii (by decide))]

theorem byte_inj {d : Char} (ascii : Ascii c) (ascii' : Ascii d) (same : UInt8.ofNat c.toNat = UInt8.ofNat d.toNat) :
    c = d := by
  have same := congrArg UInt8.toNat same
  rw [toNat_byte ascii, toNat_byte ascii'] at same
  exact Char.toNat_inj.mp same

/-- A byte of ASCII starts the bytes of a text only where its character starts the text. -/
theorem head_of_utf8 (ascii : Ascii c) {rest : List UInt8} (front : utf8 t = UInt8.ofNat c.toNat :: rest) :
    ∃ t', t = c :: t' ∧ utf8 t' = rest := by
  cases t with
  | nil => cases front
  | cons d t =>
      rw [utf8_cons] at front
      by_cases plain : Ascii d
      · rw [utf8EncodeChar_ascii plain, List.singleton_append, List.cons.injEq] at front
        exact ⟨t, by rw [byte_inj plain ascii front.1], front.2⟩
      · obtain ⟨b, bs, bytes⟩ := List.exists_cons_of_ne_nil (String.utf8EncodeChar_ne_nil (c := d))
        have high := high_of_mem_utf8EncodeChar plain (b := b) (bytes ▸ List.mem_cons_self)
        rw [bytes, List.cons_append, List.cons.injEq] at front
        rw [front.1, toNat_byte ascii] at high
        exact absurd ascii (Nat.not_lt.mpr high)

theorem prefix_of_utf8 (ascii : ∀ c ∈ p, Ascii c) (front : utf8 p <+: utf8 t) : p <+: t := by
  induction p generalizing t with
  | nil => exact List.nil_prefix
  | cons c p ih =>
      obtain ⟨plain, more⟩ := List.forall_mem_cons.mp ascii
      obtain ⟨rest, whole⟩ := front
      rw [utf8_cons, utf8EncodeChar_ascii plain, List.singleton_append, List.cons_append] at whole
      obtain ⟨t, rfl, after⟩ := head_of_utf8 plain whole.symm
      exact List.cons_prefix_cons.mpr ⟨rfl, ih more ⟨rest, after.symm⟩⟩

theorem infix_of_append {α : Type*} {x : α} {q a b : List α} (clear : x ∉ a) (inside : x :: q <:+: a ++ b) :
    x :: q <:+: b := by
  induction a with
  | nil => exact inside
  | cons y a ih =>
      rw [List.mem_cons, not_or] at clear
      rcases List.infix_cons_iff.mp inside with starts | inside
      · exact absurd (List.cons_prefix_cons.mp starts).1 clear.1
      · exact ih clear.2 inside

/-- What is written in ASCII is found within the bytes of a text only where it is in the text. -/
theorem infix_of_utf8 (ascii : ∀ c ∈ p, Ascii c) (inside : utf8 p <:+: utf8 t) : p <:+: t := by
  cases p with
  | nil => exact List.nil_infix
  | cons c p =>
      have plain := ascii c List.mem_cons_self
      have spelled : utf8 (c :: p) = UInt8.ofNat c.toNat :: utf8 p := by
        rw [utf8_cons, utf8EncodeChar_ascii plain, List.singleton_append]
      -- The bytes of one character of the text after the other are passed over.
      induction t with
      | nil =>
          rw [spelled, utf8_nil] at inside
          exact absurd (List.infix_nil.mp inside) (List.cons_ne_nil _ _)
      | cons d t ih =>
          by_cases starts : utf8 (c :: p) <+: utf8 (d :: t)
          · exact (prefix_of_utf8 ascii starts).isInfix
          · refine List.infix_cons (ih ?_)
            by_cases narrow : Ascii d
            · rw [utf8_cons d, utf8EncodeChar_ascii narrow, List.singleton_append] at inside starts
              exact (List.infix_cons_iff.mp inside).resolve_left starts
            · rw [spelled] at inside ⊢
              refine infix_of_append (fun mem => ?_) inside
              have high := high_of_mem_utf8EncodeChar narrow mem
              rw [toNat_byte plain] at high
              exact absurd plain (Nat.not_lt.mpr high)

theorem mem_of_utf8 (ascii : Ascii c) (mem : UInt8.ofNat c.toNat ∈ utf8 t) : c ∈ t := by
  obtain ⟨d, inside, mem⟩ := List.mem_flatMap.mp mem
  by_cases plain : Ascii d
  · rw [utf8EncodeChar_ascii plain, List.mem_singleton] at mem
    exact byte_inj ascii plain mem ▸ inside
  · have high := high_of_mem_utf8EncodeChar plain mem
    rw [toNat_byte ascii] at high
    exact absurd ascii (Nat.not_lt.mpr high)

end OpenCargo.Lib

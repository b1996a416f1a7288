/-
Module: OpenCargo.Lib.Search
Purpose: The first place a word stands at in a list, looked for by slicing the list, and a text cut at its line
  ends: programs that may refuse what they read, slice it out of range, or never end.
Trusted boundary: none
Main exports: crlf, splitCrlf, splitCrlf_intercalate, no_blank_line
-/
import OpenCargo.Lib.Framing

namespace OpenCargo.Lib

/-- How a program over a list ends without a result. -/
inductive Halt where
  | refused
  | outOfRange
  | endless
deriving Repr, DecidableEq, Inhabited

/-- `?` on an option. -/
def known {α : Type} : Option α → Except Halt α
  | some a => .ok a
  | none => .error .refused

variable {α : Type} {data needle front middle rest : List α}

/-- `&data[start..stop]`. -/
def cutAt (data : List α) (start stop : Nat) : Except Halt (List α) :=
  match slice data start stop with
  | some piece => .ok piece
  | none => .error .outOfRange

theorem cutAt_of_le {start stop : Nat} (ordered : start ≤ stop) (inside : stop ≤ data.length) :
    cutAt data start stop = .ok ((data.take stop).drop start) := by
  rw [cutAt, slice_of_le ordered inside]

theorem cutAt_middle : cutAt (front ++ middle ++ rest) front.length (front.length + middle.length) = .ok middle := by
  rw [cutAt, slice_middle]

theorem cutAt_place {i : Nat} (fits : i + needle.length ≤ data.length) :
    cutAt data i (i + needle.length) = .ok ((data.drop i).take needle.length) := by
  rw [cutAt_of_le (Nat.le_add_right _ _) fits, List.drop_take, Nat.add_sub_cancel_left]

/-- A needle whose first element is not in it again is not begun before the end of what it follows. -/
theorem infix_of_head {x : α} {tail : List α} (once : x ∉ tail)
    (inside : x :: tail <:+: middle ++ (x :: tail).dropLast) : x :: tail <:+: middle := by
  induction middle with
  | nil =>
      have short := inside.length_le
      simp at short
  | cons y middle ih =>
      rw [List.cons_append] at inside
      rcases List.infix_cons_iff.mp inside with starts | inside
      · obtain ⟨same, follows⟩ := List.cons_prefix_cons.mp starts
        subst same
        rcases List.prefix_or_prefix_of_prefix follows (List.prefix_append middle _) with whole | ⟨more, rfl⟩
        · exact (List.cons_prefix_cons.mpr ⟨rfl, whole⟩).isInfix
        · rw [List.prefix_append_right_inj] at follows
          cases more with
          | nil => rw [List.append_nil]
          | cons z more =>
              have first : (x :: (middle ++ z :: more)).dropLast = x :: (middle ++ z :: more).dropLast := by
                rw [List.dropLast_cons_of_ne_nil (by simp)]
              rw [first] at follows
              rw [(List.cons_prefix_cons.mp follows).1] at once
              exact absurd (by simp) once
      · exact List.infix_cons (ih inside)

variable [DecidableEq α]

/-- The first of the places the needle stands at. -/
def firstOf (data needle : List α) : List Nat → Except Halt (Option Nat)
  | [] => .ok none
  | i :: later => do
      let piece ← cutAt data i (i + needle.length)
      if piece = needle then pure (some i) else firstOf data needle later

/-- The first place from `start` on that the needle stands at. -/
def find (data needle : List α) (start : Nat) : Except Halt (Option Nat) :=
  if needle.isEmpty || data.length < needle.length then .ok none
  else firstOf data needle (List.range' start (data.length - needle.length + 1 - start))

/-! ### What is found -/

/-- The places are all inside, so that none is out of range. -/
theorem firstOf_eq {places : List Nat} (fits : ∀ i ∈ places, i + needle.length ≤ data.length) :
    firstOf data needle places = .ok (places.find? fun i => decide (needle <+: data.drop i)) := by
  induction places with
  | nil => rfl
  | cons i places ih =>
      obtain ⟨fit, fits⟩ := List.forall_mem_cons.mp fits
      have stands : (data.drop i).take needle.length = needle ↔ needle <+: data.drop i := by
        rw [List.prefix_iff_eq_take, eq_comm]
      rw [firstOf, cutAt_place fit, List.find?_cons]
      by_cases here : needle <+: data.drop i
      · simp [here, stands.mpr here, bind, Except.bind, pure, Except.pure]
      · simp [here, stands, bind, Except.bind, ih fits]

theorem find_eq {start : Nat} (some_ : needle ≠ []) : find data needle start =
    .ok ((List.range' start (data.length + 1 - needle.length - start)).find? fun i =>
      decide (needle <+: data.drop i)) := by
  rw [find, List.isEmpty_eq_false_iff.mpr some_, Bool.false_or]
  split
  · rename_i short
    have none_ : data.length + 1 - needle.length - start = 0 := by simp at short; omega
    rw [none_]
    rfl
  · rename_i long
    have count : data.length - needle.length + 1 - start = data.length + 1 - needle.length - start := by
      simp at long
      omega
    rw [count]
    refine firstOf_eq fun i mem => ?_
    rw [List.mem_range'_1] at mem
    omega

theorem find_some {start i : Nat} (some_ : needle ≠ []) (found : find data needle start = .ok (some i)) :
    start ≤ i ∧ i + needle.length ≤ data.length := by
  rw [find_eq some_, Except.ok.injEq] at found
  have mem := List.mem_of_find?_eq_some found
  rw [List.mem_range'_1] at mem
  omega

/-- A needle that stands nowhere before the end of what precedes it is found there. -/
theorem find_middle (some_ : needle ≠ []) (first : ¬needle <:+: middle ++ needle.dropLast) :
    find (front ++ middle ++ needle ++ rest) needle front.length = .ok (some (front.length + middle.length)) := by
  have positive := List.length_pos_iff.mpr some_
  rw [find_eq some_, Except.ok.injEq, List.find?_range'_eq_some]
  refine ⟨?_, ?_, fun j from_ before => ?_⟩
  · have here : (front ++ middle ++ needle ++ rest).drop (front.length + middle.length) = needle ++ rest := by
      rw [List.append_assoc, ← List.length_append, List.drop_left]
    rw [here]
    simp
  · rw [List.mem_range'_1]
    simp only [List.length_append]
    omega
  · -- It would stand inside the part before and the needle without its last element.
    obtain ⟨k, rfl⟩ := Nat.exists_eq_add_of_le from_
    have cut : middle ++ needle ++ rest = (middle ++ needle.dropLast) ++ (needle.getLast some_ :: rest) := by
      rw [List.append_assoc middle needle.dropLast, List.append_cons needle.dropLast,
        List.dropLast_append_getLast, List.append_assoc]
    have later : (front ++ middle ++ needle ++ rest).drop (front.length + k) =
        (middle ++ needle.dropLast).drop k ++ (needle.getLast some_ :: rest) := by
      have fits : k ≤ (middle ++ needle.dropLast).length := by
        rw [List.length_append]
        omega
      rw [List.append_assoc, List.append_assoc, List.drop_length_add_append, ← List.append_assoc, cut,
        List.drop_append_of_le_length fits]
    rw [later, Bool.not_eq_true', decide_eq_false_iff_not]
    intro stands
    have short : needle.length ≤ ((middle ++ needle.dropLast).drop k).length := by
      simp
      omega
    have inside := List.prefix_of_prefix_length_le stands (List.prefix_append _ _) short
    exact first (inside.isInfix.trans (List.drop_suffix _ _).isInfix)

/-! ### Line ends -/

/-- The end of a line. -/
def crlf : List Char := ['\r', '\n']

/-- `split("\r\n")`. -/
def splitCrlf : List Char → List (List Char)
  | [] => [[]]
  | '\r' :: '\n' :: text => [] :: splitCrlf text
  | c :: text => (splitCrlf text).modifyHead (c :: ·)

variable {line text q : List Char} {c : Char} {ls : List (List Char)}

theorem splitCrlf_cons (other : ¬crlf <+: c :: text) : splitCrlf (c :: text) = (splitCrlf text).modifyHead (c :: ·) := by
  rw [splitCrlf]
  rintro text' rfl rfl
  exact other ⟨text', rfl⟩

theorem splitCrlf_last (flat : ¬crlf <:+: line) : splitCrlf line = [line] := by
  induction line with
  | nil => rfl
  | cons c line ih =>
      rw [splitCrlf_cons fun starts => flat starts.isInfix, ih fun inside => flat (List.infix_cons inside)]
      rfl

/-- A line end that starts before the end of a line would be within it. -/
theorem not_crlf_start (flat : ¬crlf <:+: c :: line) : ¬crlf <+: c :: (line ++ '\r' :: '\n' :: text) := by
  rintro ⟨rest, whole⟩
  cases line with
  | nil => simp [crlf] at whole
  | cons d line =>
      simp only [crlf, List.cons_append, List.nil_append, List.cons.injEq] at whole
      exact flat ⟨[], line, by rw [← whole.1, ← whole.2.1]; rfl⟩

theorem splitCrlf_line (flat : ¬crlf <:+: line) : splitCrlf (line ++ '\r' :: '\n' :: text) = line :: splitCrlf text := by
  induction line with
  | nil => rfl
  | cons c line ih =>
      rw [List.cons_append, splitCrlf_cons (not_crlf_start flat), ih fun inside => flat (List.infix_cons inside)]
      rfl

theorem splitCrlf_intercalate (some_ : ls ≠ []) (flat : ∀ line ∈ ls, ¬crlf <:+: line) :
    splitCrlf (crlf.intercalate ls) = ls := by
  induction ls with
  | nil => exact absurd rfl some_
  | cons line ls ih =>
      obtain ⟨flatLine, flat⟩ := List.forall_mem_cons.mp flat
      cases ls with
      | nil => simpa using splitCrlf_last flatLine
      | cons next ls =>
          rw [List.intercalate_cons_cons, List.append_assoc, crlf, List.cons_append, List.cons_append,
            List.nil_append, splitCrlf_line flatLine, ← crlf, ih (List.cons_ne_nil _ _) flat]

/-- What begins with a line end is found after a line only at its end or later. -/
theorem crlf_inside_line (flat : ¬crlf <:+: line) (inside : crlf ++ q <:+: line ++ '\r' :: '\n' :: text) :
    q <+: text ∨ crlf ++ q <:+: text := by
  induction line with
  | nil =>
      rcases List.infix_cons_iff.mp inside with starts | inside
      · exact .inl (List.cons_prefix_cons.mp (List.cons_prefix_cons.mp starts).2).2
      · rcases List.infix_cons_iff.mp inside with starts | inside
        · exact absurd (List.cons_prefix_cons.mp starts).1 (by decide)
        · exact .inr inside
  | cons c line ih =>
      rcases List.infix_cons_iff.mp inside with starts | inside
      · exact absurd ((List.prefix_append crlf q).trans starts) (not_crlf_start flat)
      · exact ih (fun within => flat (List.infix_cons within)) inside

/-- Where no line is empty, the first empty line is the one after them. -/
theorem no_blank_line (some_ : ∀ line ∈ ls, line ≠ []) (flat : ∀ line ∈ ls, ¬crlf <:+: line) :
    ¬crlf ++ crlf <:+: ls.flatMap (· ++ crlf) ++ ['\r'] := by
  induction ls with
  | nil => decide
  | cons line ls ih =>
      obtain ⟨flatLine, flat⟩ := List.forall_mem_cons.mp flat
      obtain ⟨-, some_⟩ := List.forall_mem_cons.mp some_
      rw [List.flatMap_cons, List.append_assoc, List.append_assoc]
      intro inside
      rcases crlf_inside_line flatLine inside with starts | inside
      · cases ls with
        | nil => exact absurd starts (by decide)
        | cons next ls =>
            obtain ⟨c, more, rfl⟩ := List.exists_cons_of_ne_nil (some_ next List.mem_cons_self)
            rw [List.flatMap_cons, List.append_assoc, List.append_assoc] at starts
            exact not_crlf_start (flat _ List.mem_cons_self) starts
      · exact ih some_ flat inside

/-- No line end is made where a line goes on with something else than a line feed. -/
theorem crlf_append (flat : ¬crlf <:+: line) (other : c ≠ '\n') (clear : ¬crlf <:+: c :: text) :
    ¬crlf <:+: line ++ c :: text := by
  induction line with
  | nil => exact clear
  | cons d line ih =>
      rw [List.cons_append]
      intro inside
      rcases List.infix_cons_iff.mp inside with starts | inside
      · obtain ⟨same, follows⟩ := List.cons_prefix_cons.mp starts
        cases line with
        | nil => exact other (List.cons_prefix_cons.mp follows).1.symm
        | cons e line =>
            have feed : '\n' = e := (List.cons_prefix_cons.mp follows).1
            exact flat ⟨[], line, by rw [← same, ← feed]; rfl⟩
      · exact ih (fun within => flat (List.infix_cons within)) inside

theorem flatMap_crlf (some_ : ls ≠ []) : ls.flatMap (· ++ crlf) = crlf.intercalate ls ++ crlf := by
  induction ls with
  | nil => exact absurd rfl some_
  | cons line ls ih =>
      cases ls with
      | nil => simp
      | cons next ls =>
          rw [List.flatMap_cons, ih (List.cons_ne_nil _ _), List.intercalate_cons_cons]
          simp

end OpenCargo.Lib

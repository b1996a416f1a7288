/-
Module: OpenCargo.Mcp.Canonical
Purpose: JSON values written with their keys sorted (`canonical_json` of `registry/mcp/surface.rs`), which is
  what the registry hashes: values that differ in the order of keys only are written alike, and no others.
Trusted boundary: a number is the text `Display` writes for it
Main exports: Json.Sound, Json.Rearranged, Rearranged.shape, canonicalJson_eq_iff
-/
import OpenCargo.Domain
import OpenCargo.Lib.Entries
import OpenCargo.Lib.Printing

namespace OpenCargo.Mcp

open OpenCargo.Lib

/-! ### Writing -/

def hexLower (n : Nat) : Char := "0123456789abcdef".toList.getD n '0'

/-- What a string writes for one of its characters. -/
def escapeChar (c : Char) : Text :=
  if c = '"' then ['\\', '"']
  else if c = '\\' then ['\\', '\\']
  else if c.toNat < 32 then
    match c.toNat with
    | 8 => ['\\', 'b']
    | 9 => ['\\', 't']
    | 10 => ['\\', 'n']
    | 12 => ['\\', 'f']
    | 13 => ['\\', 'r']
    | n => ['\\', 'u', '0', '0', hexLower (n / 16), hexLower (n % 16)]
  else [c]

/-- `Value::String(..).to_string()`. -/
def quote (text : Text) : Text := '"' :: text.flatMap escapeChar ++ ['"']

/-- A key and what is written for its value. -/
def writeMember (member : Text × Text) : Text := quote member.1 ++ ':' :: member.2

mutual

/-- `write_canonical`. -/
def writeCanonical : Json → Text
  | .object members =>
      '{' :: [','].intercalate ((sortOn Prod.fst (writeValues members)).map writeMember) ++ ['}']
  | .array items => '[' :: [','].intercalate (writeItems items) ++ [']']
  | .null => "null".toList
  | .bool true => "true".toList
  | .bool false => "false".toList
  | .number text => text
  | .string text => quote text

def writeItems : List Json → List Text
  | [] => []
  | item :: items => writeCanonical item :: writeItems items

def writeValues : List (Text × Json) → List (Text × Text)
  | [] => []
  | (key, value) :: members => (key, writeCanonical value) :: writeValues members

end

def canonicalJson (v : Json) : Text := writeCanonical v

example : canonicalJson (.object [("b".toList, .number ['1']),
    ("a".toList, .object [("d".toList, .array [.number ['2'], .number ['1']]), ("c".toList, .string ['x'])])]) =
    "\x7b\"a\":\x7b\"c\":\"x\",\"d\":[2,1]\x7d,\"b\":1\x7d".toList := by decide +kernel

/-! ### Values -/

/-- What a number is written in. -/
def numerals : Text :=
  ['0', '1', '2', '3', '4', '5', '6', '7', '8', '9', '+', '-', '.', 'e', 'E']

/-- A value as a parser hands it over: the keys of an object are different, and a number is written in
numerals. -/
inductive Sound : Json → Prop where
  | null : Sound .null
  | bool (b : Bool) : Sound (.bool b)
  | number {text : Text} (some_ : text ≠ []) (plain : ∀ c ∈ text, c ∈ numerals) : Sound (.number text)
  | string (text : Text) : Sound (.string text)
  | array {items : List Json} (each : ∀ item ∈ items, Sound item) : Sound (.array items)
  | object {members : List (Text × Json)} (distinct : (members.map Prod.fst).Nodup)
      (each : ∀ member ∈ members, Sound member.2) : Sound (.object members)

/-- One value with the keys of its objects in another order, at any depth. -/
inductive Rearranged : Json → Json → Prop where
  | refl (v : Json) : Rearranged v v
  | symm {v w : Json} (same : Rearranged v w) : Rearranged w v
  | trans {v w x : Json} (first : Rearranged v w) (rest : Rearranged w x) : Rearranged v x
  | members {members members' : List (Text × Json)} (perm : members.Perm members') :
      Rearranged (.object members) (.object members')
  | item (front back : List Json) {v w : Json} (inside : Rearranged v w) :
      Rearranged (.array (front ++ v :: back)) (.array (front ++ w :: back))
  | value (front back : List (Text × Json)) (key : Text) {v w : Json} (inside : Rearranged v w) :
      Rearranged (.object (front ++ (key, v) :: back)) (.object (front ++ (key, w) :: back))

/-- Two members of one key whose values are one up to the order of keys. -/
def Paired (a b : Text × Json) : Prop := a.1 = b.1 ∧ Rearranged a.2 b.2

section Written

variable {v w : Json} {items items' : List Json} {members members' : List (Text × Json)}

theorem writeItems_eq (items : List Json) : writeItems items = items.map writeCanonical := by
  induction items with
  | nil => rw [writeItems, List.map_nil]
  | cons item items ih => rw [writeItems, ih, List.map_cons]

theorem writeValues_eq (members : List (Text × Json)) :
    writeValues members = members.map fun member => (member.1, writeCanonical member.2) := by
  induction members with
  | nil => rw [writeValues, List.map_nil]
  | cons member members ih => rw [writeValues, ih, List.map_cons]

/-- A member with its value written. -/
def memberText (member : Text × Json) : Text := quote member.1 ++ ':' :: writeCanonical member.2

theorem writeCanonical_array (items : List Json) :
    writeCanonical (.array items) = '[' :: ([','].intercalate (items.map writeCanonical) ++ [']']) := by
  rw [writeCanonical, writeItems_eq]
  rfl

theorem writeCanonical_object (members : List (Text × Json)) :
    writeCanonical (.object members) =
      '{' :: ([','].intercalate ((sortOn Prod.fst members).map memberText) ++ ['}']) := by
  rw [writeCanonical, writeValues_eq, sortOn_map, List.map_map]
  rfl

/-! ### Another order of keys -/

theorem Rearranged.array (same : List.Forall₂ Rearranged items items') :
    Rearranged (.array items) (.array items') := by
  have all : ∀ front : List Json, Rearranged (.array (front ++ items)) (.array (front ++ items')) := by
    induction same with
    | nil => exact fun front => .refl _
    | @cons v w vs ws first _ ih =>
        intro front
        have one : Rearranged (.array (front ++ v :: vs)) (.array (front ++ w :: vs)) := .item front vs first
        have more := ih (front ++ [w])
        rw [List.append_assoc, List.append_assoc] at more
        exact one.trans more
  exact all []

theorem Rearranged.object (same : List.Forall₂ Paired members members') :
    Rearranged (.object members) (.object members') := by
  have all : ∀ front : List (Text × Json), Rearranged (.object (front ++ members)) (.object (front ++ members')) := by
    induction same with
    | nil => exact fun front => .refl _
    | @cons a b as bs first _ ih =>
        intro front
        obtain ⟨key, v⟩ := a
        obtain ⟨key', w⟩ := b
        obtain ⟨rfl, inside⟩ := first
        have one : Rearranged (.object (front ++ (key, v) :: as)) (.object (front ++ (key, w) :: as)) :=
          .value front as key inside
        have more := ih (front ++ [(key, w)])
        rw [List.append_assoc, List.append_assoc] at more
        exact one.trans more
  exact all []

theorem Rearranged.sound_iff (same : Rearranged v w) : Sound v ↔ Sound w := by
  induction same with
  | refl v => exact Iff.rfl
  | symm _ ih => exact ih.symm
  | trans _ _ ih ih' => exact ih.trans ih'
  | members perm =>
      constructor
      · rintro ⟨⟩
        rename_i distinct each
        exact .object ((perm.map Prod.fst).nodup_iff.mp distinct) fun m mem => each m (perm.mem_iff.mpr mem)
      · rintro ⟨⟩
        rename_i distinct each
        exact .object ((perm.map Prod.fst).nodup_iff.mpr distinct) fun m mem => each m (perm.mem_iff.mp mem)
  | @item front back v w _ ih =>
      have other : ∀ {v w : Json}, (Sound v → Sound w) → Sound (.array (front ++ v :: back)) →
          Sound (.array (front ++ w :: back)) := by
        rintro v w kept ⟨⟩
        rename_i each
        refine .array fun x mem => ?_
        rcases List.mem_append.mp mem with before | mem
        · exact each x (List.mem_append_left _ before)
        · rcases List.mem_cons.mp mem with rfl | after
          · exact kept (each v (List.mem_append_right _ List.mem_cons_self))
          · exact each x (List.mem_append_right _ (List.mem_cons_of_mem _ after))
      exact ⟨other ih.mp, other ih.mpr⟩
  | @value front back key v w _ ih =>
      have other : ∀ {v w : Json}, (Sound v → Sound w) → Sound (.object (front ++ (key, v) :: back)) →
          Sound (.object (front ++ (key, w) :: back)) := by
        rintro v w kept ⟨⟩
        rename_i distinct each
        refine .object (by simpa using distinct) fun m mem => ?_
        rcases List.mem_append.mp mem with before | mem
        · exact each m (List.mem_append_left _ before)
        · rcases List.mem_cons.mp mem with rfl | after
          · exact kept (each (key, v) (List.mem_append_right _ List.mem_cons_self))
          · exact each m (List.mem_append_right _ (List.mem_cons_of_mem _ after))
      exact ⟨other ih.mp, other ih.mpr⟩

theorem Rearranged.writeCanonical_eq (same : Rearranged v w) (sound : Sound v) :
    writeCanonical v = writeCanonical w := by
  induction same with
  | refl v => rfl
  | symm same ih => exact (ih (same.sound_iff.mpr sound)).symm
  | trans first _ ih ih' => exact (ih sound).trans (ih' (first.sound_iff.mp sound))
  | members perm =>
      cases sound with
      | object distinct each => rw [writeCanonical_object, writeCanonical_object, sortOn_eq_of_perm distinct perm]
  | @item front back v w _ ih =>
      cases sound with
      | array each =>
          have inside := ih (each v (List.mem_append_right _ List.mem_cons_self))
          rw [writeCanonical_array, writeCanonical_array, List.map_append, List.map_append, List.map_cons,
            List.map_cons, inside]
  | @value front back key v w _ ih =>
      cases sound with
      | object distinct each =>
          have inside := ih (each (key, v) (List.mem_append_right _ List.mem_cons_self))
          rw [writeCanonical, writeCanonical, writeValues_eq, writeValues_eq, List.map_append, List.map_append,
            List.map_cons, List.map_cons, inside]

end Written

/-! ### What is written is read apart -/

section Apart

variable {c d : Char} {v w : Json} {r s text text' : Text}

/-- What a string does not write as it is. -/
def specials : Text := '"' :: '\\' :: (List.range 32).map Char.ofNat

theorem escapeChar_plain (plain : c ∉ specials) : escapeChar c = [c] := by
  have quote_ : c ≠ '"' := by
    rintro rfl
    exact plain (by decide)
  have backslash : c ≠ '\\' := by
    rintro rfl
    exact plain (by decide)
  have control : ¬c.toNat < 32 := by
    intro low
    refine plain (List.mem_cons_of_mem _ (List.mem_cons_of_mem _ (List.mem_map.mpr ⟨c.toNat, ?_, ?_⟩)))
    · exact List.mem_range.mpr low
    · exact Char.ofNat_toNat c
  rw [escapeChar, if_neg quote_, if_neg backslash, if_neg control]

/-- What is escaped begins with a backslash, and no escape is the beginning of another. -/
theorem escapeChar_special : ∀ c ∈ specials, (escapeChar c).head? = some '\\' ∧
    ∀ d ∈ specials, escapeChar c <+: escapeChar d → c = d := by
  have checked : (specials.all fun c => (escapeChar c).head? == some '\\' &&
      specials.all fun d => !(escapeChar c).isPrefixOf (escapeChar d) || c == d) = true := by decide +kernel
  intro c special
  rw [List.all_eq_true] at checked
  have own := checked c special
  rw [Bool.and_eq_true, beq_iff_eq, List.all_eq_true] at own
  refine ⟨own.1, fun d special' begun => ?_⟩
  have pair := own.2 d special'
  rw [List.isPrefixOf_iff_prefix.mpr begun] at pair
  simpa using pair

theorem escapeChar_head (c : Char) : ∃ h t, escapeChar c = h :: t ∧ h ≠ '"' := by
  by_cases special : c ∈ specials
  · obtain ⟨t, escaped⟩ := List.head?_eq_some_iff.mp (escapeChar_special c special).1
    exact ⟨'\\', t, escaped, by decide⟩
  · refine ⟨c, [], escapeChar_plain special, ?_⟩
    rintro rfl
    exact special (by decide)

theorem escapeChar_apart (same : escapeChar c ++ r = escapeChar d ++ s) : c = d ∧ r = s := by
  suffices one : c = d by
    subst one
    exact ⟨rfl, List.append_cancel_left same⟩
  -- a character written as it is is no backslash
  have mixed : ∀ {c d : Char} {r s : Text}, c ∈ specials → d ∉ specials →
      escapeChar c ++ r ≠ escapeChar d ++ s := by
    intro c d r s special plain same
    obtain ⟨t, escaped⟩ := List.head?_eq_some_iff.mp (escapeChar_special c special).1
    rw [escaped, escapeChar_plain plain] at same
    have backslash : '\\' = d := (List.cons.inj same).1
    exact plain (backslash ▸ by decide)
  by_cases special : c ∈ specials
  · by_cases special' : d ∈ specials
    · rcases List.append_eq_append_iff.mp same with ⟨more, longer, -⟩ | ⟨more, longer, -⟩
      · exact (escapeChar_special c special).2 d special' ⟨more, longer.symm⟩
      · exact ((escapeChar_special d special').2 c special ⟨more, longer.symm⟩).symm
    · exact absurd same (mixed special special')
  · by_cases special' : d ∈ specials
    · exact absurd same.symm (mixed special' special)
    · rw [escapeChar_plain special, escapeChar_plain special'] at same
      exact (List.cons.inj same).1

theorem quote_apart (same : quote text ++ r = quote text' ++ s) : text = text' ∧ r = s := by
  have peeled : text.flatMap escapeChar ++ '"' :: r = text'.flatMap escapeChar ++ '"' :: s := by
    simpa [quote] using same
  clear same
  induction text generalizing text' with
  | nil =>
      cases text' with
      | nil => exact ⟨rfl, by simpa using peeled⟩
      | cons d text' =>
          obtain ⟨h, t, escaped, clear_⟩ := escapeChar_head d
          rw [List.flatMap_cons, escaped] at peeled
          exact absurd (List.cons.inj peeled).1.symm clear_
  | cons c text ih =>
      cases text' with
      | nil =>
          obtain ⟨h, t, escaped, clear_⟩ := escapeChar_head c
          rw [List.flatMap_cons, escaped] at peeled
          exact absurd (List.cons.inj peeled).1 clear_
      | cons d text' =>
          rw [List.flatMap_cons, List.flatMap_cons, List.append_assoc, List.append_assoc] at peeled
          obtain ⟨rfl, rest⟩ := escapeChar_apart peeled
          obtain ⟨rfl, same⟩ := ih rest
          exact ⟨rfl, same⟩

/-- What may follow a value. -/
def ends : Text := [',', '}', ']']

theorem takeWhile_numerals (plain : ∀ c ∈ text, c ∈ numerals) (stops : Stops ends r) :
    (text ++ r).takeWhile (· ∈ numerals) = text := by
  rw [List.takeWhile_append_of_pos (by simpa using plain)]
  have none_ : r.takeWhile (· ∈ numerals) = [] := by
    cases r with
    | nil => rfl
    | cons c r =>
        have out : ∀ c ∈ ends, c ∉ numerals := by simp [ends, numerals]
        exact List.takeWhile_cons_of_neg (by simpa using out c (stops c rfl))
  rw [none_, List.append_nil]

/-- Which of its six kinds a value is of, and what the first character says of it. -/
inductive Kind where
  | null
  | bool
  | number
  | string
  | array
  | object
deriving DecidableEq

def kindOf : Json → Kind
  | .null => .null
  | .bool _ => .bool
  | .number _ => .number
  | .string _ => .string
  | .array _ => .array
  | .object _ => .object

def kindOfChar (c : Char) : Kind :=
  if c = 'n' then .null
  else if c = 't' ∨ c = 'f' then .bool
  else if c = '"' then .string
  else if c = '[' then .array
  else if c = '{' then .object
  else .number

theorem writeCanonical_head (sound : Sound v) :
    ∃ c t, writeCanonical v = c :: t ∧ kindOfChar c = kindOf v ∧ c ≠ ']' := by
  cases sound with
  | null => exact ⟨'n', _, rfl, by decide, by decide⟩
  | bool b =>
      cases b with
      | true => exact ⟨'t', _, rfl, by decide, by decide⟩
      | false => exact ⟨'f', _, rfl, by decide, by decide⟩
  | @number text some_ plain =>
      obtain ⟨c, text, rfl⟩ := List.exists_cons_of_ne_nil some_
      have number : ∀ c ∈ numerals, kindOfChar c = .number ∧ c ≠ ']' := by
        simp [numerals, kindOfChar]
      obtain ⟨kind, other⟩ := number c (plain c List.mem_cons_self)
      exact ⟨c, text, by rw [writeCanonical], kind, other⟩
  | string text => exact ⟨'"', _, by rw [writeCanonical, quote]; rfl, rfl, by decide⟩
  | @array items each => exact ⟨'[', _, writeCanonical_array items, rfl, by decide⟩
  | @object members distinct each => exact ⟨'{', _, writeCanonical_object members, rfl, by decide⟩

/-- Two values of one kind. -/
inductive Alike : Json → Json → Prop where
  | null : Alike .null .null
  | bool (b b' : Bool) : Alike (.bool b) (.bool b')
  | number (text text' : Text) : Alike (.number text) (.number text')
  | string (text text' : Text) : Alike (.string text) (.string text')
  | array (items items' : List Json) : Alike (.array items) (.array items')
  | object (members members' : List (Text × Json)) : Alike (.object members) (.object members')

theorem alike (sound : Sound v) (sound' : Sound w) (same : writeCanonical v ++ r = writeCanonical w ++ s) :
    Alike v w := by
  obtain ⟨c, t, text, kind, -⟩ := writeCanonical_head sound
  obtain ⟨c', t', text', kind', -⟩ := writeCanonical_head sound'
  rw [text, text'] at same
  have kinds : kindOf v = kindOf w := by rw [← kind, ← kind', (List.cons.inj same).1]
  cases v <;> cases w <;> first | constructor | cases kinds

theorem memberText_apart {a b : Text × Json} (values : ReadsApart ends writeCanonical Rearranged a.2 b.2) :
    ReadsApart ends memberText Paired a b := by
  intro r s stops stops' same
  rw [memberText, memberText, List.append_assoc, List.append_assoc] at same
  obtain ⟨key, rest⟩ := quote_apart same
  obtain ⟨inside, tail⟩ := values r s stops stops' (List.cons.inj rest).2
  exact ⟨⟨key, inside⟩, tail⟩

/-- The text of a value says where it ends and, up to the order of keys, what the value is. -/
theorem writeCanonical_apart (sound : Sound v) :
    ∀ {w}, Sound w → ReadsApart ends writeCanonical Rearranged v w := by
  induction sound with
  | null =>
      intro w sound' r s _ _ same
      cases alike .null sound' same with
      | null => exact ⟨.refl _, List.append_cancel_left same⟩
  | bool b =>
      intro w sound' r s _ _ same
      cases alike (.bool b) sound' same with
      | bool _ b' =>
          cases b <;> cases b'
          · exact ⟨.refl _, List.append_cancel_left same⟩
          · simp [writeCanonical] at same
          · simp [writeCanonical] at same
          · exact ⟨.refl _, List.append_cancel_left same⟩
  | @number text some_ plain =>
      intro w sound' r s stops stops' same
      cases alike (.number some_ plain) sound' same with
      | number _ text' =>
          cases sound' with
          | number some_' plain' =>
              rw [writeCanonical, writeCanonical] at same
              have read := congrArg (List.takeWhile (· ∈ numerals)) same
              rw [takeWhile_numerals plain stops, takeWhile_numerals plain' stops'] at read
              subst read
              exact ⟨.refl _, List.append_cancel_left same⟩
  | string text =>
      intro w sound' r s _ _ same
      cases alike (.string text) sound' same with
      | string _ text' =>
          rw [writeCanonical, writeCanonical] at same
          obtain ⟨rfl, tail⟩ := quote_apart same
          exact ⟨.refl _, tail⟩
  | @array items each ih =>
      intro w sound' r s stops stops' same
      cases alike (.array each) sound' same with
      | array _ items' =>
          cases sound' with
          | array each' =>
              rw [writeCanonical_array, writeCanonical_array, List.cons_append, List.cons_append,
                List.append_assoc, List.append_assoc] at same
              obtain ⟨inside, tail⟩ := separated_inj (by decide : ',' ∈ ends) (by decide : ']' ∈ ends) (by decide)
                (fun a mem b mem' => ih a mem (each' b mem'))
                (fun a mem => by
                  obtain ⟨c, t, text, -, other⟩ := writeCanonical_head (each a mem)
                  exact ⟨c, t, text, other⟩)
                (fun b mem => by
                  obtain ⟨c, t, text, -, other⟩ := writeCanonical_head (each' b mem)
                  exact ⟨c, t, text, other⟩) (List.cons.inj same).2
              exact ⟨.array inside, tail⟩
  | @object members distinct each ih =>
      intro w sound' r s stops stops' same
      cases alike (.object distinct each) sound' same with
      | object _ members' =>
          cases sound' with
          | object distinct' each' =>
              rw [writeCanonical_object, writeCanonical_object, List.cons_append, List.cons_append,
                List.append_assoc, List.append_assoc] at same
              have begins : ∀ m : Text × Json, ∃ c t, memberText m = c :: t ∧ c ≠ '}' := fun m =>
                ⟨'"', _, by rw [memberText, quote]; rfl, by decide⟩
              have perm := sortOn_perm Prod.fst members
              have perm' := sortOn_perm Prod.fst members'
              obtain ⟨inside, tail⟩ := separated_inj (by decide : ',' ∈ ends) (by decide : '}' ∈ ends) (by decide)
                (fun a mem b mem' => memberText_apart
                  (ih a (perm.mem_iff.mp mem) (each' b (perm'.mem_iff.mp mem'))))
                (fun a _ => begins a) (fun b _ => begins b) (List.cons.inj same).2
              exact ⟨((Rearranged.members perm).symm.trans (.object inside)).trans (.members perm'), tail⟩

/-- `canonical_json` tells any two values apart that differ in more than the order of keys, and no others. -/
theorem canonicalJson_eq_iff (sound : Sound v) (sound' : Sound w) :
    canonicalJson v = canonicalJson w ↔ Rearranged v w := by
  constructor
  · intro same
    have whole : writeCanonical v ++ [] = writeCanonical w ++ [] := by
      rw [List.append_nil, List.append_nil]
      exact same
    exact (writeCanonical_apart sound sound' [] [] (by simp [Stops]) (by simp [Stops]) whole).1
  · exact fun same => same.writeCanonical_eq sound

end Apart

/-! ### What another order of keys keeps -/

section Kept

variable {v w x : Json} {members members' : List (Text × Json)}

/-- Members looked up by their keys are the same up to the order of keys in them. -/
def SameAt (members members' : List (Text × Json)) : Prop :=
  ∀ key, Option.Rel Rearranged (valueAt key members) (valueAt key members')

theorem rel_refl (a : Option Json) : Option.Rel Rearranged a a := by
  cases a with
  | none => exact .none
  | some v => exact .some (.refl v)

theorem rel_symm {a b : Option Json} (same : Option.Rel Rearranged a b) : Option.Rel Rearranged b a := by
  cases same with
  | none => exact .none
  | some same => exact .some same.symm

theorem rel_trans {a b c : Option Json} (first : Option.Rel Rearranged a b) (rest : Option.Rel Rearranged b c) :
    Option.Rel Rearranged a c := by
  cases first with
  | none => exact rest
  | some first =>
      cases rest with
      | some rest => exact .some (first.trans rest)

theorem sameAt_of_paired (same : List.Forall₂ Paired members members') : SameAt members members' := by
  intro key
  induction same with
  | nil => exact .none
  | @cons a b as bs first _ ih =>
      obtain ⟨key', v⟩ := a
      obtain ⟨key'', w⟩ := b
      obtain ⟨rfl, inside⟩ := first
      by_cases here : key' = key
      · simpa [valueAt, here] using Option.Rel.some inside
      · simpa [valueAt, here] using ih

/-- Two values of one shape: the same, or lists that agree place by place, or objects that agree key by key. -/
inductive Shape : Json → Json → Prop where
  | same (v : Json) : Shape v v
  | array {items items' : List Json} (each : List.Forall₂ Rearranged items items') :
      Shape (.array items) (.array items')
  | object {members members' : List (Text × Json)} (each : SameAt members members') :
      Shape (.object members) (.object members')

theorem Shape.symm (shape : Shape v w) : Shape w v := by
  cases shape with
  | same => exact .same _
  | array each => exact .array (each.flip.imp fun _ _ inside => inside.symm)
  | object each => exact .object fun key => rel_symm (each key)

theorem forall₂_trans {xs ys zs : List Json} (first : List.Forall₂ Rearranged xs ys)
    (rest : List.Forall₂ Rearranged ys zs) : List.Forall₂ Rearranged xs zs := by
  induction first generalizing zs with
  | nil => exact rest
  | cons here _ ih =>
      cases rest with
      | cons here' more => exact .cons (here.trans here') (ih more)

theorem Shape.trans (first : Shape v w) (rest : Shape w x) : Shape v x := by
  cases first with
  | same => exact rest
  | array each =>
      cases rest with
      | same => exact .array each
      | array each' => exact .array (forall₂_trans each each')
  | object each =>
      cases rest with
      | same => exact .object each
      | object each' => exact .object fun key => rel_trans (each key) (each' key)

theorem forall₂_place {α : Type*} {R : α → α → Prop} (refl : ∀ a, R a a) (front back : List α) {a b : α}
    (here : R a b) : List.Forall₂ R (front ++ a :: back) (front ++ b :: back) := by
  have same : ∀ xs : List α, List.Forall₂ R xs xs := fun xs => List.forall₂_same.mpr fun a _ => refl a
  exact List.rel_append (same front) (.cons here (same back))

theorem Rearranged.shape (same : Rearranged v w) (sound : Sound v) : Shape v w := by
  induction same with
  | refl v => exact .same v
  | symm same ih => exact (ih (same.sound_iff.mpr sound)).symm
  | trans first _ ih ih' => exact (ih sound).trans (ih' (first.sound_iff.mp sound))
  | members perm =>
      cases sound with
      | object distinct each => exact .object fun key => valueAt_perm distinct perm key ▸ rel_refl _
  | item front back inside _ => exact .array (forall₂_place .refl front back inside)
  | value front back key inside _ =>
      refine .object (sameAt_of_paired (forall₂_place (fun _ => ⟨rfl, .refl _⟩) front back ⟨rfl, inside⟩))

end Kept

end OpenCargo.Mcp

/-
Module: OpenCargo.Mcp.Surface
Purpose: The tools of a server as `registry/mcp/surface.rs` fingerprints them: each read from the JSON the
  server answered, all of them sorted by name and written with sorted keys. The text says which tools
  they are, up to their order and the order of keys.
Trusted boundary: none
Main exports: hashedText, Tool.Same, Tool.Sound, tool_texts_tell_tools_apart
-/
import OpenCargo.Lib.Fallible
import OpenCargo.Mcp.Canonical

namespace OpenCargo.Mcp

open OpenCargo.Lib

/-! ### Tools -/

/-- One tool as `tools/list` answers it. -/
structure Tool where
  name : Text
  title : Option Text
  description : Option Text
  icons : Option Json
  inputSchema : Json
  outputSchema : Option Json
  annotations : Json
  meta_ : Option Json

def toolKeys : List Text :=
  ["name".toList, "title".toList, "description".toList, "icons".toList, "inputSchema".toList,
    "outputSchema".toList, "annotations".toList, "_meta".toList]

/-- The members a tool is read from: those of an object, or the eight of a sequence in the order of the
fields. -/
def toolMembers : Json → Option (List (Text × Json))
  | .object members => some members
  | .array items => if items.length = 8 then some (toolKeys.zip items) else none
  | _ => none

/-- An `Option<Value>`: `null` is read as none. -/
def optional (members : List (Text × Json)) (key : String) : Option Json :=
  match valueAt key.toList members with
  | some .null => none
  | found => found

/-- An `Option<String>`: none where another value stands there. -/
def optionalText (members : List (Text × Json)) (key : String) : Option (Option Text) :=
  match optional members key with
  | none => some none
  | some (.string text) => some (some text)
  | some _ => none

def emptyObject : Json := .object []

/-- `serde_json::from_value`; a member no field is named for is passed over. -/
def Tool.parse (j : Json) : Option Tool := do
  let members ← toolMembers j
  let name ← (valueAt "name".toList members).bind Json.asStr
  let title ← optionalText members "title"
  let description ← optionalText members "description"
  some
    { name := name
      title := title
      description := description
      icons := optional members "icons"
      inputSchema := (valueAt "inputSchema".toList members).getD emptyObject
      outputSchema := optional members "outputSchema"
      annotations := (valueAt "annotations".toList members).getD emptyObject
      meta_ := optional members "_meta" }

/-- What `json!` makes of a tool. -/
def Tool.members (t : Tool) : List (Text × Json) :=
  [("name".toList, .string t.name), ("title".toList, (t.title.map .string).getD .null),
    ("description".toList, (t.description.map .string).getD .null), ("icons".toList, t.icons.getD .null),
    ("inputSchema".toList, t.inputSchema), ("outputSchema".toList, t.outputSchema.getD .null),
    ("annotations".toList, t.annotations), ("_meta".toList, t.meta_.getD .null)]

def Tool.surface (t : Tool) : Json := .object t.members

/-- `tool_surface`: the tools sorted by name. -/
def toolSurface (tools : List Tool) : Json := .array ((sortOn Tool.name tools).map Tool.surface)

/-- The text `Hashes::of` takes the digest of. -/
def hashedText (tools : List Tool) : Text := canonicalJson (toolSurface tools)

/-! ### Tools up to the order of keys -/

/-- One tool with the keys in its values in another order. -/
structure Tool.Same (t u : Tool) : Prop where
  name : t.name = u.name
  title : t.title = u.title
  description : t.description = u.description
  icons : Option.Rel Rearranged t.icons u.icons
  inputSchema : Rearranged t.inputSchema u.inputSchema
  outputSchema : Option.Rel Rearranged t.outputSchema u.outputSchema
  annotations : Rearranged t.annotations u.annotations
  meta_ : Option.Rel Rearranged t.meta_ u.meta_

/-- An optional value is not `null`, and is one a parser hands over. -/
def Given (a : Option Json) : Prop := ∀ v ∈ a, Sound v ∧ v ≠ .null

/-- What is read of a value is made of such values. -/
structure Tool.Sound (t : Tool) : Prop where
  icons : Given t.icons
  inputSchema : Mcp.Sound t.inputSchema
  outputSchema : Given t.outputSchema
  annotations : Mcp.Sound t.annotations
  meta_ : Given t.meta_

section Reading

variable {v w : Json} {t u : Tool} {members members' : List (Text × Json)} {a b : Option Json} {key : String}

theorem sound_valueAt (each : ∀ member ∈ members, Sound member.2) {key : Text} {v : Json}
    (found : valueAt key members = some v) : Sound v := by
  obtain ⟨member, at_, rfl⟩ := Option.map_eq_some_iff.mp found
  exact each member (List.mem_of_find?_eq_some at_)

theorem toolMembers_sound (sound : Sound v) (read : toolMembers v = some members) :
    ∀ member ∈ members, Sound member.2 := by
  cases sound with
  | object distinct each =>
      cases read
      exact each
  | array each =>
      rw [toolMembers] at read
      split at read
      · cases read
        rintro ⟨key, item⟩ mem
        exact each item (List.of_mem_zip mem).2
      · cases read
  | null => cases read
  | bool _ => cases read
  | number _ _ => cases read
  | string _ => cases read

theorem optional_given (each : ∀ member ∈ members, Sound member.2) (key : String) : Given (optional members key) := by
  intro v found
  rw [optional] at found
  split at found
  · cases found
  · rename_i other
    refine ⟨sound_valueAt each found, ?_⟩
    rintro rfl
    exact other found

theorem parse_eq_some (read : Tool.parse v = some t) : ∃ members, toolMembers v = some members ∧
    valueAt "name".toList members = some (.string t.name) ∧ optionalText members "title" = some t.title ∧
    optionalText members "description" = some t.description ∧ t.icons = optional members "icons" ∧
    t.inputSchema = (valueAt "inputSchema".toList members).getD emptyObject ∧
    t.outputSchema = optional members "outputSchema" ∧
    t.annotations = (valueAt "annotations".toList members).getD emptyObject ∧ t.meta_ = optional members "_meta" := by
  rw [Tool.parse] at read
  simp only [Option.bind_eq_bind, Option.bind_eq_some_iff] at read
  obtain ⟨members, found, name, ⟨named, held, text⟩, title, titled, description, described, made⟩ := read
  cases made
  cases named with
  | string own =>
      cases text
      exact ⟨members, found, held, titled, described, rfl, rfl, rfl, rfl, rfl⟩
  | null => cases text
  | bool _ => cases text
  | number _ => cases text
  | array _ => cases text
  | object _ => cases text

theorem emptyObject_sound : Sound emptyObject := .object .nil (by simp)

theorem getD_sound (each : ∀ member ∈ members, Sound member.2) (key : Text) :
    Sound ((valueAt key members).getD emptyObject) := by
  cases found : valueAt key members with
  | none => exact emptyObject_sound
  | some v => exact sound_valueAt each found

theorem parse_sound (read : Tool.parse v = some t) (sound : Sound v) : t.Sound := by
  obtain ⟨members, found, -, -, -, icons, input, output, annotations, meta_⟩ := parse_eq_some read
  have each := toolMembers_sound sound found
  refine ⟨icons ▸ optional_given each _, input ▸ getD_sound each _, output ▸ optional_given each _,
    annotations ▸ getD_sound each _, meta_ ▸ optional_given each _⟩

end Reading

/-! ### What the order of keys leaves of a tool -/

section Reordering

variable {v w : Json} {t u : Tool} {members members' : List (Text × Json)} {a b : Option Json}

theorem eq_of_null (same : Rearranged .null w) : w = .null := by
  cases same.shape .null with
  | same => rfl

theorem eq_of_string {text : Text} (same : Rearranged (.string text) w) : w = .string text := by
  cases same.shape (.string text) with
  | same => rfl

theorem paired_zip (keys : List Text) {items items' : List Json} (each : List.Forall₂ Rearranged items items') :
    List.Forall₂ Paired (keys.zip items) (keys.zip items') := by
  induction each generalizing keys with
  | nil =>
      rw [List.zip_nil_right]
      exact .nil
  | cons here _ ih =>
      cases keys with
      | nil => exact .nil
      | cons key keys => exact .cons ⟨rfl, here⟩ (ih keys)

theorem toolMembers_same (same : Rearranged v w) (sound : Sound v) (read : toolMembers v = some members) :
    ∃ members', toolMembers w = some members' ∧ SameAt members members' := by
  cases same.shape sound with
  | same => exact ⟨members, read, fun key => rel_refl _⟩
  | @array items items' each =>
      rw [toolMembers] at read
      split at read
      · rename_i eight
        cases read
        have eight' : items'.length = 8 := each.length_eq ▸ eight
        exact ⟨toolKeys.zip items', by rw [toolMembers, if_pos eight'], sameAt_of_paired (paired_zip _ each)⟩
      · cases read
  | object each =>
      cases read
      exact ⟨_, rfl, each⟩

theorem optional_same (same : SameAt members members') (key : String) :
    Option.Rel Rearranged (optional members key) (optional members' key) := by
  rw [optional, optional]
  have at_ := same key.toList
  cases found : valueAt key.toList members with
  | none =>
      rw [found] at at_
      cases found' : valueAt key.toList members' with
      | none => exact .none
      | some w =>
          rw [found'] at at_
          cases at_
  | some v =>
      rw [found] at at_
      cases found' : valueAt key.toList members' with
      | none =>
          rw [found'] at at_
          cases at_
      | some w =>
          rw [found'] at at_
          cases at_ with
          | some inside =>
              by_cases null : v = .null
              · subst null
                rw [eq_of_null inside]
                exact .none
              · have null' : w ≠ .null := by
                  rintro rfl
                  exact null (eq_of_null inside.symm)
                split
                · rename_i v' held
                  exact absurd (Option.some.inj held) null
                · split
                  · rename_i w' held
                    exact absurd (Option.some.inj held) null'
                  · exact .some inside

theorem optionalText_same (same : SameAt members members') {key : String}
    {read : Option Text} (found : optionalText members key = some read) : optionalText members' key = some read := by
  have at_ := optional_same same key
  rw [optionalText] at found ⊢
  cases one : optional members key with
  | none =>
      rw [one] at at_ found
      cases two : optional members' key with
      | none => exact found
      | some w =>
          rw [two] at at_
          cases at_
  | some v =>
      rw [one] at at_ found
      cases two : optional members' key with
      | none =>
          rw [two] at at_
          cases at_
      | some w =>
          rw [two] at at_
          cases at_ with
          | some inside =>
              cases v with
              | string text =>
                  rw [eq_of_string inside]
                  exact found
              | null => cases found
              | bool _ => cases found
              | number _ => cases found
              | array _ => cases found
              | object _ => cases found

theorem getD_same {d : Json} (same : Option.Rel Rearranged a b) : Rearranged (a.getD d) (b.getD d) := by
  cases same with
  | none => exact .refl _
  | some inside => exact inside

theorem parse_same (same : Rearranged v w) (sound : Sound v) (read : Tool.parse v = some t) :
    ∃ u, Tool.parse w = some u ∧ t.Same u := by
  obtain ⟨members, found, name, title, description, icons, input, output, annotations, meta_⟩ := parse_eq_some read
  obtain ⟨members', found', alike⟩ := toolMembers_same same sound found
  have named : valueAt "name".toList members' = some (.string t.name) := by
    have at_ := alike "name".toList
    rw [name] at at_
    cases found : valueAt "name".toList members' with
    | none =>
        rw [found] at at_
        cases at_
    | some w =>
        rw [found] at at_
        cases at_ with
        | some inside => rw [eq_of_string inside]
  have made : Tool.parse w = some ⟨t.name, t.title, t.description, optional members' "icons",
      (valueAt "inputSchema".toList members').getD emptyObject, optional members' "outputSchema",
      (valueAt "annotations".toList members').getD emptyObject, optional members' "_meta"⟩ := by
    simp only [Tool.parse, found', Option.bind_eq_bind, Option.bind_some, named, Json.asStr,
      optionalText_same alike title, optionalText_same alike description]
  refine ⟨_, made, ⟨rfl, rfl, rfl, ?_, ?_, ?_, ?_, ?_⟩⟩
  · rw [icons]
    exact optional_same alike "icons"
  · rw [input]
    exact getD_same (alike "inputSchema".toList)
  · rw [output]
    exact optional_same alike "outputSchema"
  · rw [annotations]
    exact getD_same (alike "annotations".toList)
  · rw [meta_]
    exact optional_same alike "_meta"

theorem Tool.Same.surface (same : t.Same u) : Rearranged t.surface u.surface := by
  refine .object ?_
  rw [Tool.members, Tool.members, same.name, same.title, same.description]
  exact .cons ⟨rfl, .refl _⟩ (.cons ⟨rfl, .refl _⟩ (.cons ⟨rfl, .refl _⟩ (.cons ⟨rfl, getD_same same.icons⟩
    (.cons ⟨rfl, same.inputSchema⟩ (.cons ⟨rfl, getD_same same.outputSchema⟩ (.cons ⟨rfl, same.annotations⟩
      (.cons ⟨rfl, getD_same same.meta_⟩ .nil)))))))

theorem Given.getD (given : Given a) : Sound (a.getD .null) := by
  cases a with
  | none => exact .null
  | some v => exact (given v rfl).1

theorem given_text (text : Option Text) : Given (text.map .string) := by
  intro v mem
  obtain ⟨own, -, rfl⟩ := Option.map_eq_some_iff.mp mem
  exact ⟨.string own, nofun⟩

theorem Given.inj (given : Given a) (given' : Given b) (same : Rearranged (a.getD .null) (b.getD .null)) :
    Option.Rel Rearranged a b := by
  cases a with
  | none =>
      cases b with
      | none => exact .none
      | some w => exact absurd (eq_of_null same) (given' w rfl).2
  | some v =>
      cases b with
      | none => exact absurd (eq_of_null same.symm) (given v rfl).2
      | some w => exact .some same

theorem text_inj {text text' : Option Text}
    (same : Rearranged ((text.map .string).getD .null) ((text'.map .string).getD .null)) : text = text' := by
  have inside := (given_text text).inj (given_text text') same
  cases text with
  | none =>
      cases text' with
      | none => rfl
      | some _ => cases inside
  | some one =>
      cases text' with
      | none => cases inside
      | some two =>
          cases inside with
          | some inside =>
              cases eq_of_string inside
              rfl

theorem Tool.Sound.surface (sound : t.Sound) : Mcp.Sound t.surface := by
  have keys : t.members.map Prod.fst = toolKeys := rfl
  refine .object (by rw [keys]; decide) ?_
  rw [Tool.members]
  simp only [List.forall_mem_cons]
  exact ⟨.string _, (given_text _).getD, (given_text _).getD, sound.icons.getD, sound.inputSchema,
    sound.outputSchema.getD, sound.annotations, sound.meta_.getD, by simp⟩

theorem sameAt_of_object (same : Rearranged (.object members) (.object members')) (sound : Sound (.object members)) :
    SameAt members members' := by
  cases same.shape sound with
  | same => exact fun key => rel_refl _
  | object each => exact each

theorem SameAt.value (same : SameAt members members') {key : Text} (held : valueAt key members = some v)
    (held' : valueAt key members' = some w) : Rearranged v w := by
  have at_ := same key
  rw [held, held'] at at_
  cases at_ with
  | some inside => exact inside

theorem Tool.Sound.same (sound : t.Sound) (sound' : u.Sound) (same : Rearranged t.surface u.surface) : t.Same u := by
  have each : SameAt t.members u.members := sameAt_of_object same sound.surface
  have held : ∀ t : Tool, ∀ n < 8, valueAt (toolKeys.getD n []) t.members =
      some (t.members.getD n ([], .null)).2 := by
    intro t n small
    interval_cases n <;> simp [toolKeys, Tool.members, valueAt]
  have at_ := fun n small => each.value (held t n small) (held u n small)
  exact
    { name := (Json.string.inj (eq_of_string (at_ 0 (by decide)))).symm
      title := text_inj (at_ 1 (by decide))
      description := text_inj (at_ 2 (by decide))
      icons := sound.icons.inj sound'.icons (at_ 3 (by decide))
      inputSchema := at_ 4 (by decide)
      outputSchema := sound.outputSchema.inj sound'.outputSchema (at_ 5 (by decide))
      annotations := at_ 6 (by decide)
      meta_ := sound.meta_.inj sound'.meta_ (at_ 7 (by decide)) }

/-! ### Lists of tools -/

theorem toolSurface_sound {tools : List Tool} (sound : ∀ t ∈ tools, t.Sound) : Mcp.Sound (toolSurface tools) := by
  refine .array fun j mem => ?_
  obtain ⟨t, inside, rfl⟩ := List.mem_map.mp mem
  exact (sound t ((sortOn_perm _ tools).mem_iff.mp inside)).surface

theorem forall₂_of_array {items items' : List Json} (same : Rearranged (.array items) (.array items'))
    (sound : Sound (.array items)) : List.Forall₂ Rearranged items items' := by
  cases same.shape sound with
  | same => exact List.forall₂_same.mpr fun v _ => .refl v
  | array each => exact each

variable {ts us us' : List Tool} {ds es es' : List Json}

theorem hashedText_same (same : List.Forall₂ Tool.Same ts us') (perm : us'.Perm us) (sound : ∀ t ∈ ts, t.Sound)
    (distinct : (ts.map Tool.name).Nodup) : hashedText ts = hashedText us := by
  have names : ts.map Tool.name = us'.map Tool.name := by
    rw [← List.forall₂_eq_eq_eq, List.forall₂_map_left_iff, List.forall₂_map_right_iff]
    exact same.imp fun _ _ one => one.name
  have sorted : List.Forall₂ Tool.Same (sortOn Tool.name ts) (sortOn Tool.name us) := by
    rw [← sortOn_eq_of_perm (names ▸ distinct) perm]
    exact forall₂_sortOn (fun _ _ one => one.name) same
  have surfaces : Rearranged (toolSurface ts) (toolSurface us) := by
    refine .array ?_
    rw [List.forall₂_map_left_iff, List.forall₂_map_right_iff]
    exact sorted.imp fun _ _ one => one.surface
  exact surfaces.writeCanonical_eq (toolSurface_sound sound)

theorem same_of_hashedText (sound : ∀ t ∈ ts, t.Sound) (sound' : ∀ u ∈ us, u.Sound)
    (same : hashedText ts = hashedText us) : ∃ us', us'.Perm us ∧ List.Forall₂ Tool.Same ts us' := by
  have surfaces := (canonicalJson_eq_iff (toolSurface_sound sound) (toolSurface_sound sound')).mp same
  have each := forall₂_of_array surfaces (toolSurface_sound sound)
  rw [List.forall₂_map_left_iff, List.forall₂_map_right_iff] at each
  have sorted : List.Forall₂ Tool.Same (sortOn Tool.name ts) (sortOn Tool.name us) :=
    forall₂_mem_imp each fun t mem u mem' one =>
      (sound t ((sortOn_perm _ ts).mem_iff.mp mem)).same (sound' u ((sortOn_perm _ us).mem_iff.mp mem')) one
  obtain ⟨us', same', perm⟩ := List.perm_comp_forall₂ (sortOn_perm Tool.name ts).symm sorted
  exact ⟨us', perm.trans (sortOn_perm Tool.name us), same'⟩

theorem parse_all_same (sound : ∀ d ∈ ds, Sound d) (same : List.Forall₂ Rearranged ds es')
    (read : List.Forall₂ (fun d t => Tool.parse d = some t) ds ts) :
    ∃ us', List.Forall₂ (fun e u => Tool.parse e = some u) es' us' ∧ List.Forall₂ Tool.Same ts us' := by
  induction same generalizing ts with
  | nil =>
      cases read
      exact ⟨[], .nil, .nil⟩
  | @cons d e ds es here _ ih =>
      cases read with
      | cons one more =>
          obtain ⟨u, read', same'⟩ := parse_same here (sound d List.mem_cons_self) one
          obtain ⟨us', reads, sames⟩ := ih (fun d mem => sound d (List.mem_cons_of_mem _ mem)) more
          exact ⟨u :: us', .cons read' reads, .cons same' sames⟩

theorem parse_all_sound (sound : ∀ d ∈ ds, Sound d) (read : ds.mapM Tool.parse = some ts) : ∀ t ∈ ts, t.Sound := by
  intro t mem
  obtain ⟨d, inside, one⟩ : ∃ d ∈ ds, Tool.parse d = some t := by
    obtain ⟨i, small, rfl⟩ := List.getElem_of_mem mem
    have each := mapM_eq_some_iff.mp read
    have small' : i < ds.length := each.length_eq ▸ small
    exact ⟨ds[i], List.getElem_mem small', each.get small' small⟩
  exact parse_sound one (sound d inside)

/-- Of definitions that are read as tools, the hashed text is the same whatever the order of keys and, with
different names, of the tools; and where it is the same, the tools are, up to these. The text of any
value is the same exactly up to the order of keys. -/
theorem tool_texts_tell_tools_apart :
    (∀ v w, Sound v → Sound w → (canonicalJson v = canonicalJson w ↔ Rearranged v w)) ∧
    (∀ (ds es es' : List Json) ts, (∀ d ∈ ds, Sound d) → List.Forall₂ Rearranged ds es' → es'.Perm es →
      ds.mapM Tool.parse = some ts → (ts.map Tool.name).Nodup →
        ∃ us, es.mapM Tool.parse = some us ∧ hashedText us = hashedText ts) ∧
    ∀ (ds es : List Json) ts us, (∀ d ∈ ds, Sound d) → (∀ e ∈ es, Sound e) → ds.mapM Tool.parse = some ts →
      es.mapM Tool.parse = some us → hashedText ts = hashedText us →
        ∃ us', us'.Perm us ∧ List.Forall₂ Tool.Same ts us' := by
  refine ⟨fun v w sound sound' => canonicalJson_eq_iff sound sound', ?_, ?_⟩
  · intro ds es es' ts sound same perm read distinct
    obtain ⟨us', reads, sames⟩ := parse_all_same sound same (mapM_eq_some_iff.mp read)
    obtain ⟨us, reads', perm'⟩ := List.perm_comp_forall₂ perm.symm reads
    exact ⟨us, mapM_eq_some_iff.mpr reads',
      (hashedText_same sames perm'.symm (parse_all_sound sound read) distinct).symm⟩
  · intro ds es ts us sound sound' read read' same
    exact same_of_hashedText (parse_all_sound sound read) (parse_all_sound sound' read') same

end Reordering

/-- `{"name": ..., key: text}`. -/
def sampleTool (name key text : String) : Json :=
  .object [("name".toList, .string name.toList), (key.toList, .string text.toList)]

/-- A tool with a title. -/
def titled (name title : String) : Tool := ⟨name.toList, some title.toList, none, none, emptyObject, none, emptyObject, none⟩

theorem sampleTool_sound {name key text : String} (other : key.toList ≠ "name".toList) :
    Sound (sampleTool name key text) := by
  refine .object (by simpa [eq_comm] using other) ?_
  simp only [List.forall_mem_cons]
  exact ⟨.string _, .string _, by simp⟩

theorem swapped_tools_hash_alike : ∃ us,
    [sampleTool "b" "title" "2", sampleTool "a" "title" "1"].mapM Tool.parse = some us ∧
      hashedText us = hashedText [titled "a" "1", titled "b" "2"] := by
  refine tool_texts_tell_tools_apart.2.1 [sampleTool "a" "title" "1", sampleTool "b" "title" "2"] _
    [sampleTool "a" "title" "1", sampleTool "b" "title" "2"] _ ?_ (List.forall₂_same.mpr fun d _ => .refl d)
    (List.Perm.swap ..) rfl (by decide)
  simp only [List.forall_mem_cons]
  exact ⟨sampleTool_sound (by decide), sampleTool_sound (by decide), by simp⟩

/-- A member that no field is named for is not hashed, and two tools of one name are hashed in the order they
came in. -/
theorem unread_member_is_not_hashed :
    (∃ ts us, [sampleTool "a" "x" "1"].mapM Tool.parse = some ts ∧ [sampleTool "a" "x" "2"].mapM Tool.parse = some us ∧
      hashedText ts = hashedText us ∧
        ¬ ∃ es', List.Perm es' [sampleTool "a" "x" "2"] ∧ List.Forall₂ Rearranged [sampleTool "a" "x" "1"] es') ∧
    ∃ ts us, [sampleTool "a" "title" "1", sampleTool "a" "title" "2"].mapM Tool.parse = some ts ∧
      [sampleTool "a" "title" "2", sampleTool "a" "title" "1"].mapM Tool.parse = some us ∧
        hashedText ts ≠ hashedText us := by
  constructor
  · refine ⟨_, _, rfl, rfl, rfl, ?_⟩
    rintro ⟨es', perm, same⟩
    rw [List.perm_singleton.mp perm] at same
    cases same with
    | cons here _ =>
        have alike := (sameAt_of_object here (sampleTool_sound (by decide))) "x".toList
        have held : valueAt "x".toList [("name".toList, Json.string "a".toList), ("x".toList, .string "1".toList)] =
          some (.string "1".toList) := rfl
        have held' : valueAt "x".toList [("name".toList, Json.string "a".toList), ("x".toList, .string "2".toList)] =
          some (.string "2".toList) := rfl
        rw [held, held'] at alike
        cases alike with
        | some inside =>
            have text := Json.string.inj (eq_of_string inside)
            revert text
            decide
  · refine ⟨[titled "a" "1", titled "a" "2"], [titled "a" "2", titled "a" "1"], rfl, rfl, ?_⟩
    decide +kernel

end OpenCargo.Mcp

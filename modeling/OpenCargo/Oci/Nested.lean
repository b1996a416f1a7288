/-
Module: OpenCargo.Oci.Nested
Purpose: Nested image names in the paths of the distribution API (`registry/oci/routing.rs`, `registry/oci/token.rs`):
  the split of a path at its endpoint, the fold of the name into one segment, and the image a challenge names.
Trusted boundary: the reading of a URI, whose length is bounded
Main exports: splitV2Path, rewriteNestedName, imageInPath, nested_names_survive
-/
import OpenCargo.Layout
import OpenCargo.Lib.Segments
import OpenCargo.Lib.Utf8

namespace OpenCargo.Oci.Nested

open OpenCargo.Lib

/-! ### The code -/

/-- The `[start, end)` range of the image-name segments. -/
def splitV2Path (segs : List Text) : Option (Nat × Nat) :=
  let n := segs.length
  let marker :=
    if 2 ≤ n ∧ segs.drop (n - 2) = ["tags".toList, "list".toList] then some (n - 2)
    else if 3 ≤ n ∧ (segs.drop (n - 3)).take 2 = ["blobs".toList, "uploads".toList] then some (n - 3)
    else if 2 ≤ n ∧ (segs[n - 2]? = some "manifests".toList ∨ segs[n - 2]? = some "blobs".toList) then
      some (n - 2)
    else none
  marker.bind fun m => if 1 < m then some (1, m) else none

/-- `join("/")`. -/
def joined (segs : List Text) : Text := ['/'].intercalate segs

/-- `join("%2F")`. -/
def folded (segs : List Text) : Text := ['%', '2', 'F'].intercalate segs

structure Uri where
  path : Text
  query : Option Text
deriving Repr, DecidableEq, Inhabited

def Uri.text (uri : Uri) : Text := uri.path ++ uri.query.elim [] ('?' :: ·)

/-- A URI is no longer than this. -/
def maxLen : Nat := 65534

/-- The URI library: its reading of a path and a query, and the characters they are of. -/
structure Http where
  parse : Text → Option Uri
  inPath : Char → Bool
  inQuery : Char → Bool

namespace Http

def Holds (http : Http) (uri : Uri) : Prop :=
  uri.path.head? = some '/' ∧ uri.path.all http.inPath = true ∧
    (uri.query.all fun query => query.all http.inQuery) = true

structure Documented (http : Http) : Prop where
  escape : ['%', '2', 'F'].all http.inPath = true
  reads : ∀ uri, http.Holds uri → Keys.byteLength uri.text ≤ maxLen → http.parse uri.text = some uri
  refuses : ∀ text, maxLen < Keys.byteLength text → http.parse text = none

end Http

/-- `strip_prefix("/v2/")`, `split('/')`. -/
def segmentsOf (path : Text) : Option (List Text) :=
  match path with
  | '/' :: 'v' :: '2' :: '/' :: rest => some (rest.splitOn '/')
  | _ => none

def rewriteNestedName (http : Http) (uri : Uri) : Uri :=
  match (segmentsOf uri.path).filter fun segs => decide (segs ≠ [[]]) with
  | none => uri
  | some segs =>
      match splitV2Path segs with
      | none => uri
      | some (start, stop) =>
          if stop - start < 2 then uri
          else
            let path := "/v2/".toList ++ joined (segs.take start) ++ '/' :: folded ((segs.take stop).drop start) ++
              '/' :: joined (segs.drop stop)
            (http.parse (Uri.text ⟨path, uri.query⟩)).getD uri

/-- `replace` of an escaped slash, by the case of its last digit. -/
def unfold (last : Char) : Text → Text
  | '%' :: '2' :: c :: rest => if c = last then '/' :: unfold last rest else '%' :: unfold last ('2' :: c :: rest)
  | c :: rest => c :: unfold last rest
  | [] => []

def imageInPath (path : Text) : Option Text := do
  let segs ← segmentsOf path
  let (_, stop) ← splitV2Path segs
  return unfold 'f' (unfold 'F' (joined (segs.take stop)))

/-! ### What is asked for -/

abbrev Segment := { text : Text // '/' ∉ text }

structure Image where
  repo : Segment
  names : List Segment
  named : names ≠ []

namespace Image

def segments (image : Image) : List Text := image.names.map Subtype.val

/-- `{repo}/{name}`. -/
def text (image : Image) : Text := image.repo.1 ++ '/' :: joined image.segments

end Image

inductive Endpoint where
  | manifests (reference : Segment)
  | blobs (digest : Segment)
  /-- An upload's, or, of no id, where one is begun. -/
  | uploads (id : Segment)
  | tagsList

def Endpoint.segments : Endpoint → List Text
  | manifests reference => ["manifests".toList, reference.1]
  | blobs digest => ["blobs".toList, digest.1]
  | uploads id => ["blobs".toList, "uploads".toList, id.1]
  | tagsList => ["tags".toList, "list".toList]

def pathOf (repo : Text) (names : List Text) (endpoint : Endpoint) : Text :=
  "/v2/".toList ++ joined (repo :: names ++ endpoint.segments)

def uriOf (image : Image) (endpoint : Endpoint) (query : Option Text) : Uri :=
  ⟨pathOf image.repo.1 image.segments endpoint, query⟩

/-- The same with the name in one segment. -/
def foldedUri (image : Image) (endpoint : Endpoint) (query : Option Text) : Uri :=
  ⟨pathOf image.repo.1 [folded image.segments] endpoint, query⟩

def hexValue (c : Char) : Option Nat :=
  if c.isDigit then some (c.toNat - 48)
  else if 'a' ≤ c ∧ c ≤ 'f' then some (c.toNat - 87)
  else if 'A' ≤ c ∧ c ≤ 'F' then some (c.toNat - 55)
  else none

/-- What a router makes of a segment: an escape is a byte, and what is none stands for itself. -/
def percentDecode : Text → List UInt8
  | '%' :: a :: b :: rest =>
      match hexValue a, hexValue b with
      | some x, some y => UInt8.ofNat (16 * x + y) :: percentDecode rest
      | _, _ => UInt8.ofNat 37 :: percentDecode (a :: b :: rest)
  | c :: rest => utf8 [c] ++ percentDecode rest
  | [] => []

/-! ### The split -/

section Split

variable {front : List Text} {endpoint : Endpoint}

theorem splitV2Path_append (two : 2 ≤ front.length) :
    splitV2Path (front ++ endpoint.segments) = some (1, front.length) := by
  obtain ⟨init, last, rfl⟩ := (List.eq_nil_or_concat front).resolve_left (by rintro rfl; simp at two)
  have some_ : 1 ≤ init.length := by simpa using two
  have one : 1 < init.length + 1 := Nat.lt_succ_of_le some_
  rw [List.concat_eq_append, List.append_assoc, List.singleton_append, List.length_append, List.length_singleton]
  cases endpoint <;> simp [splitV2Path, Endpoint.segments, one]

theorem flat_endpoint (endpoint : Endpoint) : ∀ seg ∈ endpoint.segments, '/' ∉ seg := by
  intro seg mem
  cases endpoint with
  | manifests reference =>
      rcases List.mem_pair.mp mem with rfl | rfl
      · decide
      · exact reference.2
  | blobs digest =>
      rcases List.mem_pair.mp mem with rfl | rfl
      · decide
      · exact digest.2
  | uploads id =>
      rcases List.mem_cons.mp mem with rfl | rest
      · decide
      · rcases List.mem_pair.mp rest with rfl | rfl
        · decide
        · exact id.2
  | tagsList => revert seg; decide

theorem segmentsOf_pathOf {repo : Text} {names : List Text} (flat : '/' ∉ repo)
    (flats : ∀ name ∈ names, '/' ∉ name) : segmentsOf (pathOf repo names endpoint) = some (repo :: names ++ endpoint.segments) := by
  have each : ∀ seg ∈ repo :: names ++ endpoint.segments, '/' ∉ seg := by
    intro seg mem
    rcases List.mem_append.mp mem with front | back
    · rcases List.mem_cons.mp front with rfl | mem
      · exact flat
      · exact flats seg mem
    · exact flat_endpoint endpoint seg back
  have cut := List.splitOn_intercalate '/' each (List.cons_ne_nil _ _)
  exact congrArg some cut

end Split

/-! ### The fold -/

section Fold

variable {names : List Text} {name rest : Text}

theorem folded_cons (some_ : names ≠ []) : folded (name :: names) = name ++ '%' :: '2' :: 'F' :: folded names := by
  cases names with
  | nil => exact absurd rfl some_
  | cons other names => simp [folded, List.intercalate_cons_cons]

theorem joined_cons (some_ : names ≠ []) : joined (name :: names) = name ++ '/' :: joined names := by
  cases names with
  | nil => exact absurd rfl some_
  | cons other names => simp [joined, List.intercalate_cons_cons]

theorem mem_folded {c : Char} (mem : c ∈ folded names) : c ∈ ['%', '2', 'F'] ∨ ∃ name ∈ names, c ∈ name := by
  induction names with
  | nil => cases mem
  | cons name names ih =>
      by_cases none_ : names = []
      · subst none_
        exact .inr ⟨name, List.mem_cons_self, by simpa [folded] using mem⟩
      · rw [folded_cons none_, List.mem_append, List.mem_cons, List.mem_cons, List.mem_cons] at mem
        rcases mem with own | escape | escape | escape | rest
        · exact .inr ⟨name, List.mem_cons_self, own⟩
        · simp [escape]
        · simp [escape]
        · simp [escape]
        · exact (ih rest).imp id fun ⟨other, mem, inside⟩ => ⟨other, List.mem_cons_of_mem _ mem, inside⟩

theorem flat_folded (flats : ∀ name ∈ names, '/' ∉ name) : '/' ∉ folded names := by
  intro mem
  rcases mem_folded mem with escape | ⟨name, mem, inside⟩
  · revert escape
    decide
  · exact flats name mem inside

theorem percentDecode_cons {c : Char} (other : c ≠ '%') :
    percentDecode (c :: rest) = utf8 [c] ++ percentDecode rest :=
  percentDecode.eq_2 c rest fun _ _ _ same => absurd same other

theorem percentDecode_percent {a b : Char} (no : hexValue a = none ∨ hexValue b = none) :
    percentDecode ('%' :: a :: b :: rest) = 37 :: percentDecode (a :: b :: rest) := by
  rw [percentDecode]
  split
  · rename_i high low
    rcases no with none_ | none_
    · rw [none_] at high
      cases high
    · rw [none_] at low
      cases low
  · rfl

/-- An escape that is put behind a text is read as one, whatever the text ends in. -/
theorem percentDecode_escape (name rest : Text) :
    percentDecode (name ++ '%' :: '2' :: 'F' :: rest) = percentDecode name ++ 47 :: percentDecode rest := by
  have slash : percentDecode ('%' :: '2' :: 'F' :: rest) = 47 :: percentDecode rest := rfl
  fun_induction percentDecode name with
  | case1 a b name x y high low ih =>
      simp only [List.cons_append]
      rw [percentDecode, high, low, ih]
  | case2 a b name fails ih =>
      have no : hexValue a = none ∨ hexValue b = none := by
        cases high : hexValue a with
        | none => exact .inl rfl
        | some x =>
            cases low : hexValue b with
            | none => exact .inr rfl
            | some y => exact absurd low (fails x y high)
      simp only [List.cons_append] at ih ⊢
      rw [percentDecode_percent no, ih]
      rfl
  | case3 c name plain ih =>
      by_cases percent : c = '%'
      · subst percent
        rw [List.cons_append]
        match name with
        | [] =>
            rw [List.nil_append, percentDecode_percent (.inl (by decide)), slash]
            rfl
        | [a] =>
            rw [List.singleton_append] at ih ⊢
            rw [percentDecode_percent (.inr (by decide)), ih]
            rfl
        | a :: b :: name => exact absurd rfl (plain a b name rfl)
      · rw [List.cons_append, percentDecode_cons percent, ih, List.append_assoc]
  | case4 => exact slash

theorem percentDecode_folded (names : List Text) :
    percentDecode (folded names) = [47].intercalate (names.map percentDecode) := by
  induction names with
  | nil => rfl
  | cons name names ih =>
      by_cases none_ : names = []
      · subst none_
        simp [folded]
      · rw [folded_cons none_, percentDecode_escape, ih]
        cases names with
        | nil => exact absurd rfl none_
        | cons other names => simp [List.intercalate_cons_cons]

theorem unfold_append {last : Char} (plain : '%' ∉ name) : unfold last (name ++ rest) = name ++ unfold last rest := by
  induction name with
  | nil => rfl
  | cons c name ih =>
      rw [List.mem_cons, not_or] at plain
      rw [List.cons_append, unfold, ih plain.2, List.cons_append]
      rintro _ _ same
      exact absurd same.symm plain.1

theorem unfold_plain {last : Char} (plain : '%' ∉ name) : unfold last name = name := by
  have whole : unfold last (name ++ []) = name ++ unfold last [] := unfold_append plain
  rwa [List.append_nil, unfold, List.append_nil] at whole

theorem unfold_folded (plain : ∀ name ∈ names, '%' ∉ name) : unfold 'F' (folded names) = joined names := by
  induction names with
  | nil => rfl
  | cons name names ih =>
      have own := plain name List.mem_cons_self
      have rest := ih fun other mem => plain other (List.mem_cons_of_mem _ mem)
      by_cases none_ : names = []
      · subst none_
        simpa [folded, joined] using unfold_plain own
      · rw [folded_cons none_, joined_cons none_, unfold_append own, unfold, if_pos rfl, rest]

theorem percent_notMem_joined (plain : ∀ name ∈ names, '%' ∉ name) : '%' ∉ joined names := by
  rw [joined, mem_intercalate_iff (by decide)]
  rintro ⟨name, mem, inside⟩
  exact plain name mem inside

end Fold

/-! ### The rewrite -/

namespace Image

/-- The image with its name in one segment. -/
def fold (image : Image) : Image where
  repo := image.repo
  names := [⟨folded image.segments, flat_folded fun _ mem => by
    obtain ⟨name, -, rfl⟩ := List.mem_map.mp mem
    exact name.2⟩]
  named := List.cons_ne_nil _ _

variable {image : Image}

theorem flat (image : Image) : ∀ name ∈ image.segments, '/' ∉ name := by
  intro _ mem
  obtain ⟨name, -, rfl⟩ := List.mem_map.mp mem
  exact name.2

theorem segments_ne_nil (image : Image) : image.segments ≠ [] := by
  rw [segments, ne_eq, List.map_eq_nil_iff]
  exact image.named

theorem segmentsOf_path (image : Image) (endpoint : Endpoint) (query : Option Text) :
    segmentsOf (uriOf image endpoint query).path = some (image.repo.1 :: image.segments ++ endpoint.segments) :=
  segmentsOf_pathOf image.repo.2 image.flat

theorem split (image : Image) (endpoint : Endpoint) :
    splitV2Path (image.repo.1 :: image.segments ++ endpoint.segments) = some (1, image.names.length + 1) := by
  have some_ := List.length_pos_iff.mpr image.named
  rw [splitV2Path_append (Nat.succ_le_succ (Nat.succ_le_of_lt (by simpa [segments] using some_)))]
  simp [segments]

end Image

section Rewrite

variable {http : Http} {image : Image} {endpoint : Endpoint} {query : Option Text}

theorem rewrite_uriOf (http : Http) (image : Image) (endpoint : Endpoint) (query : Option Text) :
    rewriteNestedName http (uriOf image endpoint query) =
      if image.names.length < 2 then uriOf image endpoint query
      else (http.parse (foldedUri image endpoint query).text).getD (uriOf image endpoint query) := by
  have more : image.repo.1 :: image.segments ++ endpoint.segments ≠ [[]] := by
    intro same
    have count := congrArg List.length same
    cases endpoint <;> simp [Endpoint.segments] at count
  have whole : (image.repo.1 :: image.segments).length = image.names.length + 1 := by simp [Image.segments]
  have path : "/v2/".toList ++ joined [image.repo.1] ++ '/' :: folded image.segments ++
      '/' :: joined endpoint.segments = pathOf image.repo.1 [folded image.segments] endpoint := by
    have ends : endpoint.segments ≠ [] := by cases endpoint <;> exact List.cons_ne_nil _ _
    rw [pathOf, List.cons_append, List.singleton_append, joined_cons (List.cons_ne_nil _ _), joined_cons ends]
    simp [joined]
  rw [rewriteNestedName, Image.segmentsOf_path, Option.filter_some, if_pos (decide_eq_true more)]
  dsimp only
  rw [Image.split]
  dsimp only
  rw [Nat.add_sub_cancel, List.take_left' whole, List.drop_left' whole]
  split
  · rfl
  · rw [foldedUri, ← path]
    rfl

/-- A URI that was read is made of characters one can be read of, and so is the rewritten one. -/
theorem holds_folded (documented : http.Documented) (held : http.Holds (uriOf image endpoint query)) :
    http.Holds (foldedUri image endpoint query) := by
  refine ⟨rfl, List.all_eq_true.mpr fun c mem => ?_, held.2.2⟩
  have old := List.all_eq_true.mp held.2.1
  rw [foldedUri, pathOf, List.mem_append] at mem
  rcases mem with front | rest
  · exact old c (List.mem_append_left _ front)
  · by_cases slash : c = '/'
    · exact slash ▸ old '/' (List.mem_append_left _ (by decide))
    · have kept : ∀ seg ∈ image.repo.1 :: image.segments ++ endpoint.segments, c ∈ seg → http.inPath c = true :=
        fun seg mem inside => old c (List.mem_append_right _ ((mem_intercalate_iff slash).mpr ⟨seg, mem, inside⟩))
      obtain ⟨seg, mem, inside⟩ := (mem_intercalate_iff slash).mp rest
      rcases List.mem_append.mp mem with front | back
      · rcases List.mem_pair.mp front with rfl | rfl
        · exact kept _ (List.mem_append_left _ List.mem_cons_self) inside
        · rcases mem_folded inside with escape | ⟨name, mem, inside⟩
          · exact List.all_eq_true.mp documented.escape c escape
          · exact kept name (List.mem_append_left _ (List.mem_cons_of_mem _ mem)) inside
      · exact kept seg (List.mem_append_right _ back) inside

/-- What survives of an image's name on the way to its handler. -/
structure Survives (http : Http) (image : Image) (endpoint : Endpoint) (query : Option Text) : Prop where
  /-- The split is the range of the name's segments, wherever their own words stand. -/
  range : splitV2Path (image.repo.1 :: image.segments ++ endpoint.segments) = some (1, image.names.length + 1)
  /-- The name is folded where the longer URI is one, and otherwise the request goes on as it came. -/
  rewritten : rewriteNestedName http (uriOf image endpoint query) =
    if Keys.byteLength (foldedUri image endpoint query).text ≤ maxLen then foldedUri image endpoint query
    else uriOf image endpoint query
  /-- The folded path is the repository, one segment and the endpoint, and the segment reads as the name. -/
  apart : segmentsOf (foldedUri image endpoint query).path =
    some (image.repo.1 :: folded image.segments :: endpoint.segments)
  decoded : percentDecode (folded image.segments) = [47].intercalate (image.segments.map percentDecode)
  again : rewriteNestedName http (rewriteNestedName http (uriOf image endpoint query)) =
    rewriteNestedName http (uriOf image endpoint query)
  /-- A challenge names the image, as it is spelled, before the rewrite and after it. -/
  challenged : '%' ∉ image.repo.1 → (∀ name ∈ image.segments, '%' ∉ name) →
    imageInPath (uriOf image endpoint query).path = some image.text ∧
      imageInPath (foldedUri image endpoint query).path = some image.text

theorem imageInPath_uriOf : imageInPath (uriOf image endpoint query).path =
    some (unfold 'f' (unfold 'F' (joined (image.repo.1 :: image.segments)))) := by
  have whole : (image.repo.1 :: image.segments).length = image.names.length + 1 := by simp [Image.segments]
  simp only [imageInPath, Image.segmentsOf_path, Option.bind_eq_bind, Option.bind_some, Image.split,
    List.take_left' whole]
  rfl

/-- For every image and endpoint, whatever words the name is of, and every query. -/
theorem nested_names_survive (documented : http.Documented) (held : http.Holds (uriOf image endpoint query)) :
    Survives http image endpoint query := by
  have alone : foldedUri image endpoint query = uriOf image.fold endpoint query := rfl
  have rewritten : rewriteNestedName http (uriOf image endpoint query) =
      if Keys.byteLength (foldedUri image endpoint query).text ≤ maxLen then foldedUri image endpoint query
      else uriOf image endpoint query := by
    rw [rewrite_uriOf]
    by_cases single : image.names.length < 2
    · obtain ⟨name, only⟩ : ∃ name, image.names = [name] :=
        List.length_eq_one_iff.mp (by have := List.length_pos_iff.mpr image.named; omega)
      have same : foldedUri image endpoint query = uriOf image endpoint query := by
        rw [foldedUri, uriOf, Image.segments, only]
        simp [folded]
      rw [if_pos single, same, ite_self]
    · rw [if_neg single]
      split
      · rename_i fits
        rw [documented.reads _ (holds_folded documented held) fits]
        rfl
      · rename_i long
        rw [documented.refuses _ (Nat.lt_of_not_le long)]
        rfl
  refine
    { range := image.split endpoint
      rewritten := rewritten
      apart := image.fold.segmentsOf_path endpoint query
      decoded := percentDecode_folded _
      again := ?_
      challenged := fun plain plains => ?_ }
  · by_cases fits : Keys.byteLength (foldedUri image endpoint query).text ≤ maxLen
    · rw [rewritten, if_pos fits, alone, rewrite_uriOf]
      exact if_pos (Nat.lt_succ_self 1)
    · rw [rewritten, if_neg fits, rewritten, if_neg fits]
  · have whole : '%' ∉ image.text := by
      rw [Image.text, List.mem_append, List.mem_cons]
      rintro (own | same | inside)
      · exact plain own
      · cases same
      · exact percent_notMem_joined plains inside
    have text : image.text = joined (image.repo.1 :: image.segments) := (joined_cons image.segments_ne_nil).symm
    constructor
    · rw [imageInPath_uriOf, ← text, unfold_plain whole, unfold_plain whole]
    · have once : unfold 'F' (joined (image.repo.1 :: [folded image.segments])) = image.text := by
        rw [joined_cons (List.cons_ne_nil _ _), unfold_append plain, unfold, joined, List.intercalate_singleton,
          unfold_folded plains]
        · rfl
        · rintro _ _ same
          cases same
      have found : imageInPath (uriOf image.fold endpoint query).path = _ := imageInPath_uriOf
      rw [alone, found]
      exact congrArg some ((congrArg (unfold 'f') once).trans (unfold_plain whole))

end Rewrite

/-! ### A name that is folded, and one too long -/

/-- A path up to the first question mark, and a query behind it. -/
def plainHttp : Http where
  parse text :=
    if Keys.byteLength text ≤ maxLen then
      some (match splitOnce '?' text with
        | some (path, query) => ⟨path, some query⟩
        | none => ⟨text, none⟩)
    else none
  inPath c := c != '?'
  inQuery _ := true

theorem plainHttp_documented : plainHttp.Documented where
  escape := by decide
  reads uri held fits := by
    have clear : '?' ∉ uri.path := fun mem => absurd (List.all_eq_true.mp held.2.1 '?' mem) (by decide)
    obtain ⟨path, _ | query⟩ := uri
    · have cut : splitOnce '?' (Uri.text ⟨path, none⟩) = none := by
        rw [Uri.text, Option.elim_none, List.append_nil]
        exact splitOnce_eq_none clear
      simp only [plainHttp, if_pos fits, cut]
      simp [Uri.text]
    · have cut : splitOnce '?' (Uri.text ⟨path, some query⟩) = some (path, query) := splitOnce_append clear
      simp only [plainHttp, if_pos fits, cut]
  refuses text long := if_neg (Nat.not_le.mpr long)

def teamBlobs : Image :=
  ⟨⟨"r".toList, by decide⟩, [⟨"team".toList, by decide⟩, ⟨"blobs".toList, by decide⟩], by decide⟩

theorem team_blobs_is_folded : rewriteNestedName plainHttp (uriOf teamBlobs (.uploads ⟨[], by decide⟩) none) =
    ⟨"/v2/r/team%2Fblobs/blobs/uploads/".toList, none⟩ := by
  have held : plainHttp.Holds (uriOf teamBlobs (.uploads ⟨[], by decide⟩) none) := by
    unfold Http.Holds
    decide
  have folded := (nested_names_survive plainHttp_documented held).rewritten
  rw [if_pos (by decide)] at folded
  exact folded.trans (by decide)

/-- A segment of `n` letters. -/
def letters (n : Nat) : Segment := ⟨List.replicate n 'a', fun mem => by cases List.eq_of_mem_replicate mem⟩

def twoOf (n : Nat) : Image := ⟨⟨"r".toList, by decide⟩, [letters n, letters n], List.cons_ne_nil _ _⟩

theorem byteLength_letters (n : Nat) : Keys.byteLength (letters n).1 = n := by
  simp only [letters, Keys.byteLength, List.map_replicate, List.sum_replicate]
  exact Nat.mul_one n

theorem path_twoOf (n : Nat) : (uriOf (twoOf n) .tagsList none).path =
    "/v2/r/".toList ++ ((letters n).1 ++ '/' :: ((letters n).1 ++ "/tags/list".toList)) := rfl

theorem byteLength_twoOf (n : Nat) : Keys.byteLength (uriOf (twoOf n) .tagsList none).text = 2 * n + 17 := by
  have ends : Keys.byteLength "/v2/r/".toList = 6 ∧ Keys.byteLength "/tags/list".toList = 10 := by decide
  have slash : '/'.utf8Size = 1 := by decide
  rw [Uri.text, path_twoOf]
  simp only [uriOf, Option.elim_none, List.append_nil, Keys.byteLength_append, Keys.byteLength_cons, slash, ends,
    byteLength_letters]
  omega

theorem byteLength_folded_twoOf (n : Nat) :
    Keys.byteLength (foldedUri (twoOf n) .tagsList none).text = 2 * n + 19 := by
  have path : (foldedUri (twoOf n) .tagsList none).path =
      "/v2/r/".toList ++ (((letters n).1 ++ '%' :: '2' :: 'F' :: (letters n).1) ++ "/tags/list".toList) := by
    have fold : folded (twoOf n).segments = (letters n).1 ++ '%' :: '2' :: 'F' :: (letters n).1 := by
      simp [folded, twoOf, Image.segments, List.intercalate]
    rw [foldedUri, fold]
    rfl
  have ends : Keys.byteLength "/v2/r/".toList = 6 ∧ Keys.byteLength "/tags/list".toList = 10 := by decide
  have escape : '%'.utf8Size = 1 ∧ '2'.utf8Size = 1 ∧ 'F'.utf8Size = 1 := by decide
  rw [Uri.text, path]
  simp only [foldedUri, Option.elim_none, List.append_nil, Keys.byteLength_append, Keys.byteLength_cons, escape, ends,
    byteLength_letters]
  omega

theorem holds_twoOf (n : Nat) : plainHttp.Holds (uriOf (twoOf n) .tagsList none) := by
  have ends : "/v2/r/".toList.all plainHttp.inPath = true ∧ "/tags/list".toList.all plainHttp.inPath = true := by
    decide
  have marks : plainHttp.inPath '/' = true ∧ plainHttp.inPath 'a' = true := by decide
  refine ⟨rfl, ?_, rfl⟩
  rw [path_twoOf, List.all_append, List.all_append, List.all_cons, List.all_append, ends.1, ends.2, marks.1]
  simp [letters, marks.2]

/-- The path of a long name is a URI, and with two bytes more is none: it is not folded. And of a name with an escape
in it, the segment reads as another text than a challenge names. -/
theorem long_name_is_not_folded :
    (plainHttp.Holds (uriOf (twoOf 32758) .tagsList none) ∧
      Keys.byteLength (uriOf (twoOf 32758) .tagsList none).text ≤ maxLen ∧
      segmentsOf (rewriteNestedName plainHttp (uriOf (twoOf 32758) .tagsList none)).path ≠
        some ((twoOf 32758).repo.1 :: folded (twoOf 32758).segments :: Endpoint.tagsList.segments)) ∧
      percentDecode "%61pp".toList = utf8 "app".toList ∧
      imageInPath "/v2/r/%61pp/manifests/latest".toList = some "r/%61pp".toList := by
  refine ⟨⟨holds_twoOf _, ?_, ?_⟩, by decide, by decide⟩
  · rw [byteLength_twoOf]
    decide
  · have unfolded := rewrite_uriOf plainHttp (twoOf 32758) .tagsList none
    rw [if_neg (by decide), plainHttp_documented.refuses _ (by rw [byteLength_folded_twoOf]; decide),
      Option.getD_none] at unfolded
    rw [unfolded, Image.segmentsOf_path]
    intro same
    have count := congrArg List.length (Option.some.inj same)
    exact absurd count (by decide)

end OpenCargo.Oci.Nested

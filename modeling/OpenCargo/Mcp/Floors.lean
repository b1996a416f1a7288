/-
Module: OpenCargo.Mcp.Floors
Purpose: A floor closes every path: in a member graph no deeper than `MAX_GROUP_DEPTH`, the closure that
  `Gates::load` reads is the whole of what is below the addressed repository, and the floor of a leaf
  holds the rules of each closed repository the leaf is below, by whichever path.
Trusted boundary: none
Main exports: closure_reaches, mem_leaves, gatherFloors_holds, floors_close_every_path
-/
import OpenCargo.Mcp.Gates

namespace OpenCargo.Mcp

open OpenCargo.Governance (AllowRule Floor GateMode admits Decision)
open OpenCargo.Lib (Lists Stack Shallow)
open OpenCargo.Resolve (maxGroupDepth)
open Relation (ReflTransGen)

/-! ### Members -/

theorem domain_eq_ok {α : Type} {answer : Except DomainError α} {a : α}
    (answered : domain answer = .ok a) : answer = .ok a := by
  cases answer <;> simp_all [domain, Except.mapError]

theorem stored_eq_ok {α : Type} {answer : Except StoreError α} {a : α}
    (answered : stored answer = .ok a) : answer = .ok a := by
  cases answer <;> simp_all [stored, Except.mapError]

theorem mem_mcpMembers {repos : RepositoryStore} {names : List Text} {members : List Repository}
    (read : mcpMembers repos names = .ok members) (member : Repository) :
    member ∈ members ↔
      member.fmt = .ok .mcp ∧ ∃ name ∈ names, repos.byName name = .ok (some member) := by
  induction names generalizing members with
  | nil =>
      cases read
      simp
  | cons name names ih =>
      rw [mcpMembers] at read
      obtain ⟨found, answer, read⟩ := Lib.bind_eq_ok.mp read
      have looked := stored_eq_ok answer
      cases found with
      | none =>
          rw [ih read]
          simp [looked]
      | some first =>
          obtain ⟨format, typed, goes⟩ := Lib.bind_eq_ok.mp read
          have known := domain_eq_ok typed
          obtain ⟨rest, others, last⟩ := Lib.bind_eq_ok.mp goes
          have rest_iff := ih others
          by_cases mcp : format = .mcp
          case pos =>
            rw [if_pos mcp] at last
            subst mcp
            cases last
            simp only [List.mem_cons, exists_eq_or_imp, rest_iff, looked, Except.ok.injEq,
              Option.some.injEq]
            constructor
            · rintro (rfl | ⟨format, later⟩)
              · exact ⟨known, .inl rfl⟩
              · exact ⟨format, .inr later⟩
            · rintro ⟨format, rfl | later⟩
              · exact .inl rfl
              · exact .inr ⟨format, later⟩
          case neg =>
            rw [if_neg mcp] at last
            cases last
            simp only [rest_iff, List.mem_cons, exists_eq_or_imp, looked, Except.ok.injEq,
              Option.some.injEq]
            constructor
            · rintro ⟨format, later⟩
              exact ⟨format, .inr later⟩
            · rintro ⟨format, rfl | later⟩
              · rw [known] at format
                cases format
                exact absurd rfl mcp
              · exact ⟨format, later⟩

theorem mem_childrenOf {repos : RepositoryStore} {repo : Repository} {children : List Repository}
    (read : childrenOf repos repo = .ok children) (member : Repository) :
    member ∈ children ↔ Below repos repo member := by
  rw [childrenOf] at read
  obtain ⟨kind, answer, read⟩ := Lib.bind_eq_ok.mp read
  have known := domain_eq_ok answer
  split at read
  case isTrue group =>
    subst group
    rw [mem_mcpMembers read]
    simp [Below, known]
  case isFalse other =>
    cases read
    simp only [List.not_mem_nil, Below, known, Except.ok.injEq, false_iff]
    rintro ⟨group, _⟩
    exact other group

/-! ### The levels -/

/-- `b` is `k` members below `a`. -/
def Steps (repos : RepositoryStore) : Nat → Repository → Repository → Prop
  | 0, a, b => a = b
  | k + 1, a, b => ∃ c, Below repos a c ∧ Steps repos k c b

theorem steps_of_reaches {repos : RepositoryStore} {a b : Repository}
    (reaches : ReflTransGen (Below repos) a b) : ∃ k, Steps repos k a b := by
  induction reaches using ReflTransGen.head_induction_on with
  | refl => exact ⟨0, rfl⟩
  | head first _ ih =>
      obtain ⟨k, rest⟩ := ih
      exact ⟨k + 1, _, first, rest⟩

/-- A repository the store holds. -/
def Held (repos : RepositoryStore) (repo : Repository) : Prop :=
  ∃ name, repos.byName name = .ok (some repo)

theorem Below.held {repos : RepositoryStore} {a b : Repository} (below : Below repos a b) :
    Held repos b := by
  obtain ⟨_, _, name, _, found⟩ := below
  exact ⟨name, found⟩

/-- A node that was read: a stored repository, with the ids of what is right below it. -/
structure Node.Read (repos : RepositoryStore) (node : Node) : Prop where
  held : Held repos node.repo
  children : ∃ members, childrenOf repos node.repo = .ok members ∧ node.children = members.map (·.id)

/-- What the search has so far: nodes that were read, and each of their members is a node too or waits
in the frontier. -/
structure Explored (repos : RepositoryStore) (nodes : List Node) (frontier : List Repository) : Prop where
  read : ∀ node ∈ nodes, node.Read repos
  waiting : ∀ repo ∈ frontier, Held repos repo
  closed : ∀ node ∈ nodes, ∀ member, Below repos node.repo member →
    member ∈ frontier ∨ ∃ other ∈ nodes, other.repo = member

theorem visitLevel_spec {store : Store} {frontier next : List Repository} {nodes : List Node}
    {result : List Node × List Repository}
    (explored : Explored store.toRepositoryStore nodes (frontier ++ next))
    (visited : visitLevel store.toRepositoryStore frontier nodes next = .ok result) :
    Explored store.toRepositoryStore result.1 result.2 ∧ (∀ node ∈ nodes, node ∈ result.1) ∧
      ∀ repo ∈ frontier, ∃ node ∈ result.1, node.repo = repo := by
  induction frontier generalizing nodes next with
  | nil =>
      cases visited
      exact ⟨explored, fun _ mem => mem, by simp⟩
  | cons repo frontier ih =>
      rw [visitLevel] at visited
      have waits := explored.waiting repo (by simp)
      split at visited
      case isTrue known =>
        obtain ⟨node, mem, same⟩ := List.any_eq_true.mp known
        have already : node.repo = repo := by
          obtain ⟨name, held⟩ := (explored.read node mem).held
          obtain ⟨other, found⟩ := waits
          exact store.keyed held found (by simpa using same)
        have fewer : Explored store.toRepositoryStore nodes (frontier ++ next) :=
          { read := explored.read
            waiting := fun repo mem => explored.waiting repo (by simp_all)
            closed := by
              intro n inside member below
              rcases explored.closed n inside member below with waiting | visited
              · rcases List.mem_cons.mp waiting with rfl | waiting
                · exact .inr ⟨node, mem, already⟩
                · exact .inl waiting
              · exact .inr visited }
        have ⟨all, grown, turned⟩ := ih fewer visited
        refine ⟨all, grown, ?_⟩
        intro other among
        rcases List.mem_cons.mp among with rfl | among
        · exact ⟨node, grown node mem, already⟩
        · exact turned other among
      case isFalse unknown =>
        obtain ⟨children, read, visited⟩ := Lib.bind_eq_ok.mp visited
        have more : Explored store.toRepositoryStore
            (nodes ++ [⟨repo, children.map (·.id)⟩]) (frontier ++ (next ++ children)) :=
          { read := by
              intro node mem
              rcases List.mem_append.mp mem with mem | mem
              · exact explored.read node mem
              · cases List.mem_singleton.mp mem
                exact ⟨waits, children, read, rfl⟩
            waiting := by
              intro other mem
              rw [← List.append_assoc] at mem
              rcases List.mem_append.mp mem with mem | mem
              · exact explored.waiting other (List.mem_cons_of_mem _ mem)
              · exact ((mem_childrenOf read other).mp mem).held
            closed := by
              intro node mem member below
              rcases List.mem_append.mp mem with mem | mem
              · rcases explored.closed node mem member below with waiting | ⟨other, among, same⟩
                · rcases List.mem_cons.mp waiting with rfl | waiting
                  · exact .inr ⟨_, List.mem_append_right _ (List.mem_singleton_self _), rfl⟩
                  · rcases List.mem_append.mp waiting with waiting | waiting
                    · exact .inl (List.mem_append_left _ waiting)
                    · exact .inl (List.mem_append_right _ (List.mem_append_left _ waiting))
                · exact .inr ⟨other, List.mem_append_left _ among, same⟩
              · cases List.mem_singleton.mp mem
                have child := (mem_childrenOf read member).mpr below
                exact .inl (List.mem_append_right _ (List.mem_append_right _ child)) }
        have ⟨all, grown, turned⟩ := ih more visited
        refine ⟨all, fun node mem => grown node (List.mem_append_left _ mem), ?_⟩
        intro other among
        rcases List.mem_cons.mp among with rfl | among
        · exact ⟨_, grown _ (List.mem_append_right _ (List.mem_singleton_self _)), rfl⟩
        · exact turned other among

theorem Explored.all {repos : RepositoryStore} {nodes : List Node} (explored : Explored repos nodes [])
    {k : Nat} {a b : Repository} (steps : Steps repos k a b) (start : ∃ node ∈ nodes, node.repo = a) :
    ∃ node ∈ nodes, node.repo = b := by
  induction k generalizing a with
  | zero =>
      cases steps
      exact start
  | succ k ih =>
      obtain ⟨c, below, rest⟩ := steps
      obtain ⟨node, mem, rfl⟩ := start
      rcases explored.closed node mem c below with waiting | visited
      · cases waiting
      · exact ih rest visited

/-- What is fewer than `levels` members below the frontier, or below a node, is a node in the end. -/
theorem visitLevels_reaches {store : Store} {levels : Nat} {frontier : List Repository}
    {nodes result : List Node} (explored : Explored store.toRepositoryStore nodes frontier)
    (visited : visitLevels store.toRepositoryStore levels frontier nodes = .ok result) :
    (∀ node ∈ result, node.Read store.toRepositoryStore) ∧ (∀ node ∈ nodes, node ∈ result) ∧
      ∀ k < levels, ∀ a b, (a ∈ frontier ∨ ∃ node ∈ nodes, node.repo = a) →
        Steps store.toRepositoryStore k a b → ∃ node ∈ result, node.repo = b := by
  induction levels generalizing frontier nodes with
  | zero =>
      cases visited
      exact ⟨explored.read, fun _ mem => mem, fun k less => absurd less (Nat.not_lt_zero k)⟩
  | succ levels ih =>
      rw [visitLevels] at visited
      obtain ⟨⟨more, next⟩, level, visited⟩ := Lib.bind_eq_ok.mp visited
      have ⟨after, grown, turned⟩ := visitLevel_spec (by simpa using explored) level
      have begins : ∀ a, (a ∈ frontier ∨ ∃ node ∈ nodes, node.repo = a) →
          ∃ node ∈ more, node.repo = a := by
        rintro a (waiting | ⟨node, mem, same⟩)
        · exact turned a waiting
        · exact ⟨node, grown node mem, same⟩
      simp only at visited
      split at visited
      case isTrue none =>
        cases visited
        have empty : next = [] := List.isEmpty_iff.mp none
        subst empty
        exact ⟨after.read, grown, fun k _ a b start steps => after.all steps (begins a start)⟩
      case isFalse some =>
        have ⟨read, kept, reach⟩ := ih after visited
        refine ⟨read, fun node mem => kept node (grown node mem), ?_⟩
        intro k less a b start steps
        obtain ⟨node, mem, rfl⟩ := begins a start
        cases k with
        | zero =>
            cases steps
            exact ⟨node, kept node mem, rfl⟩
        | succ k =>
            obtain ⟨c, below, rest⟩ := steps
            exact reach k (Nat.lt_of_succ_lt_succ less) c b (after.closed node mem c below) rest

/-! ### The depth -/

theorem steps_le_depth {store : Store} {k : Nat} {a b : Repository}
    (shallow : Shallow maxGroupDepth (kids store.toRepositoryStore))
    (held : Held store.toRepositoryStore a) (steps : Steps store.toRepositoryStore k a b) :
    k ≤ maxGroupDepth := by
  have stacked : ∃ stack : List Text, stack.length = k ∧ Stack (kids store.toRepositoryStore) stack ∧
      ∀ first ∈ stack.head?, first = a.name := by
    clear shallow
    induction k generalizing a with
    | zero => exact ⟨[], rfl, ⟨.nil, by simp⟩, by simp⟩
    | succ k ih =>
        obtain ⟨c, below, rest⟩ := steps
        obtain ⟨stack, length, stacked, first⟩ := ih below.held rest
        obtain ⟨name, found⟩ := held
        obtain ⟨group, _, inner, listed, member⟩ := below
        have lists : kids store.toRepositoryStore a.name = some a.members := by
          rw [kids, store.named found, found]
          simp [group]
        refine ⟨a.name :: stack, by simp [length], ⟨?_, ?_⟩, by simp⟩
        · refine List.isChain_cons.mpr ⟨?_, stacked.listed⟩
          intro second isHead
          rw [first second isHead, store.named member]
          exact ⟨a.members, lists, listed⟩
        · intro name mem
          rcases List.mem_cons.mp mem with rfl | mem
          · simp [lists]
          · exact stacked.nodes name mem
  obtain ⟨stack, length, stacked, _⟩ := stacked
  rw [← length]
  exact shallow stack stacked

theorem closure_reaches {store : Store} {addressed : Repository} {nodes : List Node}
    (shallow : Shallow maxGroupDepth (kids store.toRepositoryStore))
    (held : Held store.toRepositoryStore addressed)
    (visited : closure store.toRepositoryStore addressed = .ok nodes) :
    (∀ node ∈ nodes, node.Read store.toRepositoryStore) ∧
      ∀ repo, ReflTransGen (Below store.toRepositoryStore) addressed repo →
        ∃ node ∈ nodes, node.repo = repo := by
  have start : Explored store.toRepositoryStore [] [addressed] :=
    ⟨by simp, by simpa using held, by simp⟩
  have ⟨read, _, reach⟩ := visitLevels_reaches start visited
  refine ⟨read, fun repo below => ?_⟩
  obtain ⟨k, steps⟩ := steps_of_reaches below
  have near := steps_le_depth shallow held steps
  exact reach k (Nat.lt_succ_of_le near) addressed repo (.inl (List.mem_singleton_self _)) steps

/-! ### The leaves -/

/-- Where the loop of `leaves` goes from an id. -/
def onward (nodes : List Node) (id : Int) : List Int :=
  match nodeOf nodes id with
  | some node => if node.repo.kind = .ok .group then node.children else []
  | none => []

/-- An id the loop puts out. -/
def IsLeaf (nodes : List Node) (id : Int) : Prop :=
  ∃ node, nodeOf nodes id = some node ∧ node.repo.kind ≠ .ok .group

theorem unspent_node (first : Node) (nodes : List Node) (seen : List Int) :
    unspent (first :: nodes) seen =
      (if first.repo.id ∈ seen then 0 else first.children.length) + unspent nodes seen := by
  by_cases known : first.repo.id ∈ seen
  · simp [unspent, known]
  · simp [unspent, known]

theorem unspent_cons_le (nodes : List Node) (seen : List Int) (id : Int) :
    unspent nodes (id :: seen) ≤ unspent nodes seen := by
  induction nodes with
  | nil => exact Nat.le_refl _
  | cons first nodes ih =>
      simp only [unspent_node, List.mem_cons]
      by_cases known : first.repo.id ∈ seen
      · simpa [known] using ih
      · simp only [known, or_false, if_false]
        split <;> omega

theorem unspent_cons {nodes : List Node} {seen : List Int} {id : Int} {node : Node}
    (found : nodeOf nodes id = some node) (fresh : id ∉ seen) :
    unspent nodes (id :: seen) + node.children.length ≤ unspent nodes seen := by
  induction nodes with
  | nil => cases found
  | cons first nodes ih =>
      simp only [unspent_node, List.mem_cons]
      by_cases same : first.repo.id = id
      · have isFirst : first = node := by simpa [nodeOf, same] using found
        have rest := unspent_cons_le nodes seen id
        rw [isFirst] at same ⊢
        simp only [same, true_or, if_true, fresh, if_false]
        omega
      · have later : nodeOf nodes id = some node := by simpa [nodeOf, same] using found
        have rest := ih later
        simp only [same, false_or]
        split <;> omega

/-- Where the loop stands: what was seen goes on to what was seen or to the stack, and the leaves among
it are out. -/
structure Sweep (nodes : List Node) (stack seen out : List Int) : Prop where
  closed : ∀ a ∈ seen, ∀ b ∈ onward nodes a, b ∈ seen ∨ b ∈ stack
  put : ∀ a ∈ seen, IsLeaf nodes a → a ∈ out

section Sweep

variable {nodes : List Node} {stack seen out : List Int} {id : Int}

theorem Sweep.finished (sweep : Sweep nodes [] seen out) {a b : Int} (start : a ∈ seen)
    (reaches : ReflTransGen (fun a b => b ∈ onward nodes a) a b) (leaf : IsLeaf nodes b) : b ∈ out := by
  have inside : b ∈ seen := by
    clear leaf
    induction reaches with
    | refl => exact start
    | tail _ step ih => simpa using sweep.closed _ ih _ step
  exact sweep.put b inside leaf

theorem Sweep.drop (sweep : Sweep nodes (id :: stack) seen out) (known : id ∈ seen) :
    Sweep nodes stack seen out where
  closed := by
    intro a mem b goes
    rcases sweep.closed a mem b goes with inside | waits
    · exact .inl inside
    · rcases List.mem_cons.mp waits with rfl | waits
      · exact .inl known
      · exact .inr waits
  put := sweep.put

theorem Sweep.visit {pushed more : List Int} (sweep : Sweep nodes (id :: stack) seen out)
    (goes : ∀ b ∈ onward nodes id, b ∈ pushed) (kept : ∀ b ∈ stack, b ∈ pushed)
    (grown : ∀ b ∈ out, b ∈ more) (leaf : IsLeaf nodes id → id ∈ more) :
    Sweep nodes pushed (id :: seen) more where
  closed := by
    intro a mem b next
    rcases List.mem_cons.mp mem with rfl | mem
    · exact .inr (goes b next)
    · rcases sweep.closed a mem b next with inside | waits
      · exact .inl (List.mem_cons_of_mem _ inside)
      · rcases List.mem_cons.mp waits with rfl | waits
        · exact .inl List.mem_cons_self
        · exact .inr (kept b waits)
  put := by
    intro a mem isLeaf
    rcases List.mem_cons.mp mem with rfl | mem
    · exact leaf isLeaf
    · exact grown a (sweep.put a mem isLeaf)

/-- With fuel for what is on the stack and for what can still be pushed, the loop puts out every leaf
below what was seen or is on the stack. -/
theorem leavesLoop_complete {fuel : Nat} (enough : stack.length + unspent nodes seen ≤ fuel)
    (sweep : Sweep nodes stack seen out) {a b : Int} (start : a ∈ seen ∨ a ∈ stack)
    (reaches : ReflTransGen (fun a b => b ∈ onward nodes a) a b) (leaf : IsLeaf nodes b) :
    b ∈ leavesLoop nodes fuel stack seen out := by
  induction fuel generalizing stack seen out with
  | zero =>
      obtain rfl : stack = [] := List.length_eq_zero_iff.mp (by omega)
      exact sweep.finished (by simpa using start) reaches leaf
  | succ fuel ih =>
      cases stack with
      | nil => exact sweep.finished (by simpa using start) reaches leaf
      | cons id stack =>
          rw [leavesLoop]
          rw [List.length_cons] at enough
          have begins : ∀ pushed : List Int, (∀ b ∈ stack, b ∈ pushed) → a ∈ id :: seen ∨ a ∈ pushed := by
            intro pushed kept
            rcases start with inside | waits
            · exact .inl (List.mem_cons_of_mem _ inside)
            · rcases List.mem_cons.mp waits with rfl | waits
              · exact .inl List.mem_cons_self
              · exact .inr (kept a waits)
          have less := unspent_cons_le nodes seen id
          split
          case isTrue known =>
            refine ih (by omega) (sweep.drop known) ?_
            rcases begins stack fun _ mem => mem with inside | waits
            · rcases List.mem_cons.mp inside with rfl | inside
              · exact .inl known
              · exact .inl inside
            · exact .inr waits
          case isFalse fresh =>
            split
            case h_1 absent =>
              have here : Sweep nodes stack (id :: seen) out :=
                sweep.visit (by simp [onward, absent]) (fun _ mem => mem) (fun _ mem => mem)
                  (by simp [IsLeaf, absent])
              exact ih (by omega) here (begins _ fun _ mem => mem)
            case h_2 node found =>
              have spent := unspent_cons found fresh
              split
              case isTrue group =>
                have kept : ∀ b ∈ stack, b ∈ node.children.reverse ++ stack :=
                  fun _ mem => List.mem_append_right _ mem
                have here : Sweep nodes (node.children.reverse ++ stack) (id :: seen) out :=
                  sweep.visit (by simp +contextual [onward, found, group]) kept (fun _ mem => mem)
                    (by simp [IsLeaf, found, group])
                refine ih ?_ here (begins _ kept)
                rw [List.length_append, List.length_reverse]
                omega
              case isFalse terminal =>
                have here : Sweep nodes stack (id :: seen) (id :: out) :=
                  sweep.visit (by simp [onward, found, terminal]) (fun _ mem => mem)
                    (fun _ mem => List.mem_cons_of_mem _ mem) (fun _ => List.mem_cons_self)
                exact ih (by omega) here (begins _ fun _ mem => mem)

theorem mem_leaves {start leaf : Int}
    (reaches : ReflTransGen (fun a b => b ∈ onward nodes a) start leaf) (isLeaf : IsLeaf nodes leaf) :
    leaf ∈ leaves nodes start := by
  have nothing : Sweep nodes [start] [] [] := ⟨by simp, by simp⟩
  exact leavesLoop_complete (by simp) nothing (.inr (List.mem_singleton_self _)) reaches isLeaf

end Sweep

theorem nodeOf_held {store : Store} {nodes : List Node} {repo : Repository}
    (read : ∀ node ∈ nodes, node.Read store.toRepositoryStore)
    (visited : ∃ node ∈ nodes, node.repo = repo) :
    ∃ node, nodeOf nodes repo.id = some node ∧ node.repo = repo := by
  obtain ⟨node, mem, rfl⟩ := visited
  have isSome : (nodeOf nodes node.repo.id).isSome := by
    rw [nodeOf, List.find?_isSome]
    exact ⟨node, mem, by simp⟩
  obtain ⟨found, answer⟩ := Option.isSome_iff_exists.mp isSome
  refine ⟨found, answer, ?_⟩
  obtain ⟨name, held⟩ := (read node mem).held
  obtain ⟨other, stored⟩ := (read found (List.mem_of_find?_eq_some answer)).held
  have same : found.repo.id = node.repo.id := by simpa using List.find?_some answer
  exact store.keyed stored held same

theorem reaches_onward {store : Store} {nodes : List Node}
    (read : ∀ node ∈ nodes, node.Read store.toRepositoryStore) {a b : Repository}
    (all : ∀ repo, ReflTransGen (Below store.toRepositoryStore) a repo → ∃ node ∈ nodes, node.repo = repo)
    (reaches : ReflTransGen (Below store.toRepositoryStore) a b) :
    ReflTransGen (fun a b => b ∈ onward nodes a) a.id b.id := by
  induction reaches with
  | refl => exact .refl
  | @tail c d before below ih =>
      refine ih.tail ?_
      obtain ⟨node, found, same⟩ := nodeOf_held read (all c before)
      obtain ⟨members, listed, children⟩ := (read node (List.mem_of_find?_eq_some found)).children
      rw [same] at listed
      have child : d ∈ members := (mem_childrenOf listed d).mpr below
      simp only [onward, found, same, below.1, if_true, children]
      exact List.mem_map_of_mem child

/-! ### The floors -/

section Floors

variable {mcp : McpReads} {settings : Settings}

/-- A floor holds a fragment. -/
def Holds (floors : Int → Option Floor) (leaf : Int) (fragment : Text × List AllowRule) : Prop :=
  ∃ floor, floors leaf = some floor ∧ fragment ∈ floor.fragments

theorem Holds.push {floors : Int → Option Floor} {leaf other : Int}
    {fragment pushed : Text × List AllowRule} (holds : Holds floors leaf fragment) :
    Holds (pushFragment pushed floors other) leaf fragment := by
  obtain ⟨floor, found, mem⟩ := holds
  by_cases same : leaf = other
  · subst same
    exact ⟨_, Function.update_self .., by simp [found, mem]⟩
  · exact ⟨floor, by rw [pushFragment, Function.update_of_ne same, found], mem⟩

theorem Holds.pushAll {floors : Int → Option Floor} {leaf : Int} {others : List Int}
    {fragment pushed : Text × List AllowRule} (holds : Holds floors leaf fragment) :
    Holds (others.foldl (pushFragment pushed) floors) leaf fragment := by
  induction others generalizing floors with
  | nil => exact holds
  | cons other others ih => exact ih holds.push

theorem holds_pushed {floors : Int → Option Floor} {leaf : Int} {others : List Int}
    {fragment : Text × List AllowRule} (mem : leaf ∈ others) :
    Holds (others.foldl (pushFragment fragment) floors) leaf fragment := by
  induction others generalizing floors with
  | nil => cases mem
  | cons other others ih =>
      rcases List.mem_cons.mp mem with rfl | mem
      · have here : Holds (pushFragment fragment floors leaf) leaf fragment :=
          ⟨_, Function.update_self .., by simp⟩
        exact here.pushAll
      · exact ih mem

theorem gatherFloors_cons {addressed : Int} {nodes rest : List Node} {node : Node}
    {floors result : Int → Option Floor}
    (gathered : gatherFloors mcp settings addressed nodes (node :: rest) floors = .ok result) :
    ∃ here, gatherFloors mcp settings addressed nodes rest here = .ok result ∧
      (∀ leaf fragment, Holds floors leaf fragment → Holds here leaf fragment) ∧
      (node.repo.id ≠ addressed → modeOf settings node.repo.name = .hide →
        ∀ rules, mcp.allowRules node.repo.id = .ok rules → rules ≠ [] →
          ∀ leaf ∈ leaves nodes node.repo.id, Holds here leaf (node.repo.name, rules)) := by
  rw [gatherFloors] at gathered
  split at gathered
  case isTrue skipped =>
    refine ⟨floors, gathered, fun _ _ holds => holds, ?_⟩
    intro below hides
    rcases skipped with same | other
    · exact absurd same below
    · exact absurd hides other
  case isFalse =>
    obtain ⟨gate, answer, gathered⟩ := Lib.bind_eq_ok.mp gathered
    rw [gateOf] at answer
    obtain ⟨rules, read, made⟩ := Lib.bind_eq_ok.mp answer
    have read := stored_eq_ok read
    cases made
    split at gathered
    case isTrue none =>
      refine ⟨floors, gathered, fun _ _ holds => holds, ?_⟩
      intro _ _ others known some
      rw [read] at known
      cases known
      exact absurd (List.isEmpty_iff.mp none) some
    case isFalse =>
      refine ⟨_, gathered, fun _ _ holds => holds.pushAll, ?_⟩
      intro _ _ others known _ leaf mem
      rw [read] at known
      cases known
      exact holds_pushed mem

/-- Each closed repository of the closure puts its rules in the floor of each of its leaves. -/
theorem gatherFloors_holds {addressed : Int} {nodes rest : List Node} {node : Node}
    {floors result : Int → Option Floor} {rules : List AllowRule} {leaf : Int}
    (gathered : gatherFloors mcp settings addressed nodes rest floors = .ok result)
    (mem : node ∈ rest) (below : node.repo.id ≠ addressed)
    (hides : modeOf settings node.repo.name = .hide) (known : mcp.allowRules node.repo.id = .ok rules)
    (some : rules ≠ []) (reached : leaf ∈ leaves nodes node.repo.id) :
    Holds result leaf (node.repo.name, rules) := by
  have kept : ∀ (rest : List Node) (floors : Int → Option Floor),
      gatherFloors mcp settings addressed nodes rest floors = .ok result →
      ∀ fragment, Holds floors leaf fragment → Holds result leaf fragment := by
    intro rest
    induction rest with
    | nil =>
        intro floors done fragment holds
        cases done
        exact holds
    | cons first rest ih =>
        intro floors done fragment holds
        obtain ⟨here, later, grown, _⟩ := gatherFloors_cons done
        exact ih here later fragment (grown leaf fragment holds)
  induction rest generalizing floors with
  | nil => cases mem
  | cons first rest ih =>
      obtain ⟨here, later, _, put⟩ := gatherFloors_cons gathered
      rcases List.mem_cons.mp mem with rfl | mem
      · exact kept rest here later _ (put below hides rules known some leaf reached)
      · exact ih later mem

end Floors

/-! ### Every path -/

/-- In a store whose groups are at most `MAX_GROUP_DEPTH` deep, and for any addressed repository of it:
the floor that `Gates::load` gives a leaf holds the rules of each closed repository below the
addressed one from which the leaf is reachable; and what those rules hide is not served from that
leaf, neither a server nor a skill, with the deleted ones or without. -/
theorem floors_close_every_path (store : Store) (mcp : McpReads) (settings : Settings)
    {addressed : Repository} {gates : Gates}
    (shallow : Shallow maxGroupDepth (kids store.toRepositoryStore))
    (held : store.byName addressed.name = .ok (some addressed))
    (loaded : Gates.load mcp settings store.toRepositoryStore addressed = .ok gates) :
    ∀ closed leaf rules, ReflTransGen (Below store.toRepositoryStore) addressed closed →
      closed ≠ addressed → modeOf settings closed.name = .hide →
      mcp.allowRules closed.id = .ok rules →
      ReflTransGen (Below store.toRepositoryStore) closed leaf → leaf.kind ≠ .ok .group →
        (rules ≠ [] → Holds gates.floors leaf.id (closed.name, rules)) ∧
        ∀ name, admits rules name = false →
          (∀ row includeDeleted, row.name = name →
            (gates.decide leaf.id row includeDeleted).served = false) ∧
          ∀ decision, (gates.decideSkill leaf.id name decision).served = false := by
  intro closed leaf rules below apart hides known reaches terminal
  rw [Gates.load] at loaded
  obtain ⟨nodes, visited, loaded⟩ := Lib.bind_eq_ok.mp loaded
  obtain ⟨floors, gathered, loaded⟩ := Lib.bind_eq_ok.mp loaded
  obtain ⟨gate, _, made⟩ := Lib.bind_eq_ok.mp loaded
  cases made
  have ⟨read, all⟩ := closure_reaches shallow ⟨_, held⟩ visited
  obtain ⟨node, mem, rfl⟩ := all closed below
  have fromHere : ∀ repo, ReflTransGen (Below store.toRepositoryStore) node.repo repo →
      ∃ other ∈ nodes, other.repo = repo := fun repo later => all repo (below.trans later)
  have isLeaf : IsLeaf nodes leaf.id := by
    obtain ⟨other, found, same⟩ := nodeOf_held read (fromHere leaf reaches)
    exact ⟨other, found, by rwa [same]⟩
  have reached := mem_leaves (reaches_onward read fromHere reaches) isLeaf
  have other : node.repo.id ≠ addressed.id := by
    intro same
    obtain ⟨name, stored⟩ := (read node mem).held
    exact apart (store.keyed stored held same)
  have holds : rules ≠ [] →
      Holds (fun leaf => (floors leaf).map sortFragments) leaf.id (node.repo.name, rules) := by
    intro some
    obtain ⟨floor, found, inside⟩ := gatherFloors_holds gathered mem other hides known some reached
    exact ⟨sortFragments floor, by simp [found], (List.mem_insertionSort _).mpr inside⟩
  refine ⟨holds, fun name refused => ?_⟩
  have some : rules ≠ [] := by
    rintro rfl
    simp [admits, Governance.allowed, Governance.maxByKey] at refused
  obtain ⟨floor, found, inside⟩ := holds some
  exact Gates.floor_closes _ found inside refused

/-! ### A leaf with an open and a closed path -/

/-- The store that holds these rows. -/
def Store.ofRows (rows : List Repository) (ids : (rows.map (·.id)).Nodup) : Store where
  byName name := .ok (rows.find? (·.name == name))
  incarnation _ := .ok none
  named := by
    intro name repo found
    cases found' : rows.find? (·.name == name) with
    | none => simp [found'] at found
    | some row =>
        simp only [found', Except.ok.injEq, Option.some.injEq] at found
        subst found
        simpa using List.find?_some found'
  keyed := by
    intro name other repo stored found known same
    simp only [Except.ok.injEq] at found known
    exact List.inj_on_of_nodup_map ids (List.mem_of_find?_eq_some found)
      (List.mem_of_find?_eq_some known) same

theorem Store.ofRows_shallow {rows : List Repository} {ids : (rows.map (·.id)).Nodup} {depth : Nat}
    (rank : Text → Nat) (ranked : ∀ row ∈ rows, row.kind = .ok .group →
      rank row.name < depth ∧ ∀ name ∈ row.members, rank name < rank row.name) :
    Shallow depth (kids (Store.ofRows rows ids).toRepositoryStore) := by
  have group : ∀ a listed, kids (Store.ofRows rows ids).toRepositoryStore a = some listed →
      ∃ row ∈ rows, row.name = a ∧ row.kind = .ok .group ∧ row.members = listed := by
    intro a listed lists
    simp only [kids] at lists
    split at lists
    case h_1 row found =>
      split at lists
      case isTrue kind =>
        cases lists
        simp only [Store.ofRows, Except.ok.injEq] at found
        exact ⟨row, List.mem_of_find?_eq_some found, by simpa using List.find?_some found, kind, rfl⟩
      case isFalse => cases lists
    case h_2 => cases lists
  apply Shallow.of_rank rank
  · rintro a b ⟨listed, lists, mem⟩
    obtain ⟨row, inside, rfl, kind, rfl⟩ := group a listed lists
    exact (ranked row inside kind).2 b mem
  · intro a lists
    obtain ⟨listed, lists⟩ := Option.isSome_iff_exists.mp lists
    obtain ⟨row, inside, rfl, kind, rfl⟩ := group a listed lists
    exact (ranked row inside kind).1

/-- An MCP repository with these members. -/
def mcpRow (id : Int) (name : Text) (kind : RepoKind) (members : List Text) : Repository where
  id := id
  name := name
  repoType := kind.asStr
  format := Format.mcp.asStr
  visibility := .public_
  config := some ⟨members⟩

def root : Repository := mcpRow 1 "all".toList .group ["open".toList, "closed".toList]

def closedGroup : Repository := mcpRow 3 "closed".toList .group ["mirror".toList]

def mirror : Repository := mcpRow 4 "mirror".toList .proxy []

/-- `all` comes to `mirror` through `open` first, then through `closed`. -/
def twoPaths : Store :=
  Store.ofRows [root, mcpRow 2 "open".toList .group ["mirror".toList], closedGroup, mirror]
    (by decide)

/-- Only `closed` hides, and its rules deny a namespace. -/
def closedHides : Settings := fun name => if name = closedGroup.name then some .hide else none

def evil : List AllowRule := [⟨"evil/*".toList, .deny⟩]

def rulesOfClosed : McpReads := ⟨fun id => .ok (if id = closedGroup.id then evil else [])⟩

/-- The denied name is not served from `mirror`, though the open path comes to it first. -/
theorem open_path_is_closed :
    ∃ gates, Gates.load rulesOfClosed closedHides twoPaths.toRepositoryStore root = .ok gates ∧
      Holds gates.floors mirror.id (closedGroup.name, evil) ∧
      ∀ row includeDeleted, row.name = "evil/x".toList →
        (gates.decide mirror.id row includeDeleted).served = false := by
  have shallow : Shallow maxGroupDepth (kids twoPaths.toRepositoryStore) :=
    Store.ofRows_shallow (fun name => if name = root.name then 2 else if name = mirror.name then 0 else 1)
      (by decide +kernel)
  have loads : (Gates.load rulesOfClosed closedHides twoPaths.toRepositoryStore root).isOk := by
    decide +kernel
  obtain ⟨gates, loaded⟩ : ∃ gates,
      Gates.load rulesOfClosed closedHides twoPaths.toRepositoryStore root = .ok gates := by
    cases load : Gates.load rulesOfClosed closedHides twoPaths.toRepositoryStore root with
    | error err => simp [load, Except.isOk, Except.toBool] at loads
    | ok gates => exact ⟨gates, rfl⟩
  have toClosed : Below twoPaths.toRepositoryStore root closedGroup :=
    ⟨by decide, by decide, closedGroup.name, by decide, by rfl⟩
  have toMirror : Below twoPaths.toRepositoryStore closedGroup mirror :=
    ⟨by decide, by decide, mirror.name, by decide, by rfl⟩
  have closes := floors_close_every_path twoPaths rulesOfClosed closedHides shallow (by rfl) loaded
    closedGroup mirror evil (.single toClosed) (by decide) (by decide) (by rfl) (.single toMirror)
    (by decide)
  exact ⟨gates, loaded, closes.1 (by decide), (closes.2 "evil/x".toList (by decide)).1⟩

end OpenCargo.Mcp

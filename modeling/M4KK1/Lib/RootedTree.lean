import Mathlib.Logic.Relation
import Mathlib.Tactic.Common

/-!
# Keyed edges that form a rooted tree

`IsTree` follows once every key starts from a reached node and no node is entered twice.
-/

namespace M4KK1.Lib.RootedTree

open Relation Function

variable {Key Node : Type} {parent : Key → Node} {edges edges' : Key → Option Node} {root : Node}

/-- Some key leads from `source` to `target`. -/
def Edge (parent : Key → Node) (edges : Key → Option Node) (source target : Node) : Prop :=
  ∃ key, parent key = source ∧ edges key = some target

def Reached (parent : Key → Node) (root : Node) (edges : Key → Option Node) (node : Node) : Prop :=
  ReflTransGen (Edge parent edges) root node

/-- No node but the root is entered twice, all start from where the root leads, no cycles. -/
structure IsTree (parent : Key → Node) (root : Node) (edges : Key → Option Node) : Prop where
  once : ∀ {key key' node}, edges key = some node → edges key' = some node → node ≠ root →
    key = key'
  reached : ∀ {key node}, edges key = some node → Reached parent root edges (parent key)
  acyclic : ∀ node, ¬ TransGen (Edge parent edges) node node

variable {node : Node}

theorem Edge.of_edges {key : Key} (edge : edges key = some node) :
    Edge parent edges (parent key) node := ⟨key, rfl, edge⟩

theorem IsTree.root_free (tree : IsTree parent root edges) (key : Key) : edges key ≠ some root :=
  fun edge => tree.acyclic root (TransGen.tail' (tree.reached edge) (.of_edges edge))

theorem cycle_closed
    (once : ∀ {key key' node}, edges key = some node → edges key' = some node → key = key')
    {source : Node} (path : ReflTransGen (Edge parent edges) source node)
    (cycle : TransGen (Edge parent edges) node node) :
    TransGen (Edge parent edges) source source := by
  induction path using ReflTransGen.head_induction_on with
  | refl => exact cycle
  | @head source next first _ ih =>
    obtain ⟨before, path, last⟩ := TransGen.tail'_iff.mp ih
    obtain ⟨key, fromSource, edge⟩ := first
    obtain ⟨key', fromBefore, edge'⟩ := last
    obtain rfl := once edge edge'
    obtain rfl : source = before := fromSource.symm.trans fromBefore
    exact TransGen.head' ⟨key, fromSource, edge⟩ path

theorem IsTree.of_root_free
    (once : ∀ {key key' node}, edges key = some node → edges key' = some node → key = key')
    (reached : ∀ {key node}, edges key = some node → Reached parent root edges (parent key))
    (rootFree : ∀ key, edges key ≠ some root) : IsTree parent root edges := by
  refine ⟨fun edge edge' _ => once edge edge', reached, fun node cycle => ?_⟩
  obtain ⟨before, _, key, rfl, edge⟩ := TransGen.tail'_iff.mp cycle
  have path : Reached parent root edges node := (reached edge).tail (.of_edges edge)
  obtain ⟨_, _, key', _, toRoot⟩ := TransGen.tail'_iff.mp (cycle_closed once path cycle)
  exact rootFree key' toRoot

theorem IsTree.once' (tree : IsTree parent root edges) {key key' : Key}
    (edge : edges key = some node) (edge' : edges key' = some node) : key = key' :=
  tree.once edge edge' fun isRoot => tree.root_free key (isRoot ▸ edge)

theorem Reached.cases (path : Reached parent root edges node) :
    node = root ∨ ∃ key, edges key = some node := by
  cases ReflTransGen.cases_tail path with
  | inl isRoot => exact .inl isRoot
  | inr step =>
    obtain ⟨_, _, key, _, edge⟩ := step
    exact .inr ⟨key, edge⟩

theorem Reached.avoid {top : Node}
    (kept : ∀ {key target}, edges key = some target → target ≠ top → edges' key = some target)
    (path : Reached parent root edges node)
    (outside : ¬ ReflTransGen (Edge parent edges) top node) : Reached parent root edges' node := by
  induction path with
  | refl => exact .refl
  | @tail middle last _ step ih =>
    have notTop : last ≠ top := fun same => outside (same ▸ .refl)
    have notMiddle : ¬ ReflTransGen (Edge parent edges) top middle :=
      fun below => outside (below.tail step)
    obtain ⟨key, start, edge⟩ := step
    exact (ih notMiddle).tail ⟨key, start, kept edge notTop⟩

theorem eq_of_leaf {top : Node} (leaf : ∀ key target, parent key = top → edges key ≠ some target)
    (path : ReflTransGen (Edge parent edges) top node) : node = top := by
  cases ReflTransGen.cases_head path with
  | inl same => exact same.symm
  | inr step =>
    obtain ⟨next, ⟨key, start, edge⟩, _⟩ := step
    exact absurd edge (leaf key next start)

section Updates

variable [DecidableEq Key]

variable {key : Key} {value : Option Node} {node target : Node}

theorem update_cases {probe : Key} (edge : update edges key value probe = some node) :
    (probe = key ∧ value = some node) ∨ (probe ≠ key ∧ edges probe = some node) := by
  by_cases same : probe = key
  · rw [same, update_self] at edge
    exact .inl ⟨same, edge⟩
  · rw [update_of_ne same] at edge
    exact .inr ⟨same, edge⟩

theorem Reached.add (free : edges key = none) (path : Reached parent root edges node) :
    Reached parent root (update edges key (some target)) node := by
  refine ReflTransGen.mono ?_ _ _ path
  rintro source next ⟨other, start, edge⟩
  refine ⟨other, start, ?_⟩
  rw [update_of_ne fun same => by simp [same, free] at edge]
  exact edge

theorem path_of_update {source : Node}
    (path : ReflTransGen (Edge parent (update edges key value)) source target) :
    ReflTransGen (Edge parent edges) source target ∨
      ReflTransGen (Edge parent edges) source (parent key) := by
  induction path with
  | refl => exact .inl .refl
  | @tail middle last _ step ih =>
    rcases ih with path | path
    · obtain ⟨probe, rfl, edge⟩ := step
      obtain ⟨rfl, _⟩ | ⟨_, old⟩ := update_cases edge
      · exact .inr path
      · exact .inl (path.tail (.of_edges old))
    · exact .inr path

theorem Reached.new_iff (free : edges key = none)
    (fresh : ∀ other, edges other ≠ some node) (notRoot : node ≠ root) :
    Reached parent root (update edges key (some node)) node ↔
    Reached parent root edges (parent key) := by
  constructor
  · intro path
    rcases path_of_update path with old | old
    · rcases Reached.cases old with isRoot | ⟨other, edge⟩
      · exact absurd isRoot notRoot
      · exact absurd edge (fresh other)
    · exact old
  · intro start
    exact (start.add free).tail ⟨key, rfl, update_self ..⟩

/-- A new node under a reached one keeps the tree. -/
theorem IsTree.add (tree : IsTree parent root edges) (free : edges key = none)
    (start : Reached parent root edges (parent key))
    (fresh : ∀ other, edges other ≠ some node) (notRoot : node ≠ root) :
    IsTree parent root (update edges key (some node)) := by
  refine .of_root_free ?_ ?_ ?_
  · intro first second target edge edge'
    obtain ⟨isKey, isNode⟩ | ⟨_, old⟩ := update_cases edge
    · obtain ⟨isKey', _⟩ | ⟨_, old'⟩ := update_cases edge'
      · rw [isKey, isKey']
      · exact absurd (isNode ▸ old') (fresh second)
    · obtain ⟨_, isNode'⟩ | ⟨_, old'⟩ := update_cases edge'
      · exact absurd (isNode' ▸ old) (fresh first)
      · exact tree.once' old old'
  · intro probe target edge
    obtain ⟨rfl, _⟩ | ⟨_, old⟩ := update_cases edge
    · exact start.add free
    · exact (tree.reached old).add free
  · intro probe edge
    obtain ⟨_, isRoot⟩ | ⟨_, old⟩ := update_cases edge
    · exact notRoot (Option.some.inj isRoot)
    · exact tree.root_free probe old

theorem update_kept {probe : Key} (edge : edges key = some node)
    (value : Option Node) (there : edges probe = some target) (other : target ≠ node) :
    update edges key value probe = some target := by
  rwa [update_of_ne]
  rintro rfl
  exact other (Option.some.inj (there.symm.trans edge))

theorem Reached.update_leaf (edge : edges key = some node)
    (leaf : ∀ other target, parent other = node → edges other ≠ some target)
    (value : Option Node) (path : Reached parent root edges target) (notNode : target ≠ node) :
    Reached parent root (update edges key value) target :=
  Reached.avoid (update_kept edge value) path fun below => notNode (eq_of_leaf leaf below)

section

variable (tree : IsTree parent root edges)

include tree

theorem IsTree.remove (edge : edges key = some node)
    (leaf : ∀ other target, parent other = node → edges other ≠ some target) :
    IsTree parent root (update edges key none) := by
  have old : ∀ {probe target}, update edges key none probe = some target →
      edges probe = some target := by
    intro probe target found
    obtain ⟨_, impossible⟩ | ⟨_, old⟩ := update_cases found
    · cases impossible
    · exact old
  refine .of_root_free (fun first second => tree.once' (old first) (old second)) ?_
    fun probe found => tree.root_free probe (old found)
  intro probe target found
  exact (tree.reached (old found)).update_leaf edge leaf none
    fun isNode => leaf probe target isNode (old found)

theorem IsTree.lost {other : Key} (edge : edges key = some node) (below : parent other = node)
    (edge' : edges other = some target) (changed : value ≠ some node) :
    ¬ IsTree parent root (update edges key value) := by
  intro tree'
  have apart : other ≠ key := by
    rintro rfl
    exact tree.acyclic node (.single ⟨other, below, edge⟩)
  have there : update edges key value other = some target := by
    rw [update_of_ne apart, edge']
  have path := tree'.reached there
  rw [below] at path
  obtain isRoot | ⟨probe, found⟩ := path.cases
  · exact tree.root_free key (isRoot ▸ edge)
  · obtain ⟨_, isNode⟩ | ⟨notKey, old⟩ := update_cases found
    · exact changed isNode
    · exact notKey (tree.once' old edge)

theorem IsTree.replace {new : Node} (edge : edges key = some node)
    (leaf : ∀ other target, parent other = node → edges other ≠ some target)
    (fresh : ∀ other, edges other ≠ some new) (notRoot : new ≠ root) :
    IsTree parent root (update edges key (some new)) := by
  have removed := tree.remove edge leaf
  have start : Reached parent root (update edges key none) (parent key) :=
    (tree.reached edge).update_leaf edge leaf none fun isNode => leaf key node isNode edge
  have added := removed.add (update_self key none edges) start (fun other found => ?_)
    notRoot
  · rwa [update_idem] at added
  · obtain ⟨_, impossible⟩ | ⟨_, old⟩ := update_cases found
    · cases impossible
    · exact fresh other old

/-- So does an edge moved to a place that is not below it. -/
theorem IsTree.move {old new : Key} (edge : edges old = some node) (free : edges new = none)
    (start : Reached parent root edges (parent new))
    (outside : ¬ ReflTransGen (Edge parent edges) node (parent new)) :
    IsTree parent root (update (update edges new (some node)) old none) := by
  have apart : new ≠ old := by
    rintro rfl
    rw [free] at edge
    cases edge
  have moved : ∀ {probe target}, update (update edges new (some node)) old none probe =
    some target →
      (probe = new ∧ target = node) ∨ (probe ≠ old ∧ edges probe = some target) := by
    intro probe target found
    obtain ⟨_, impossible⟩ | ⟨notOld, found⟩ := update_cases found
    · cases impossible
    · obtain ⟨isNew, isNode⟩ | ⟨_, there⟩ := update_cases found
      · exact .inl ⟨isNew, (Option.some.inj isNode).symm⟩
      · exact .inr ⟨notOld, there⟩
  have stays : ∀ {probe target}, edges probe = some target → target ≠ node →
      update (update edges new (some node)) old none probe = some target := by
    intro probe target there notNode
    have notOld : probe ≠ old := by
      rintro rfl
      exact notNode (Option.some.inj (there.symm.trans edge))
    have notNew : probe ≠ new := by
      rintro rfl
      rw [free] at there
      cases there
    rw [update_of_ne notOld, update_of_ne notNew, there]
  have newEdge : update (update edges new (some node)) old none new =
      some node := by
    rw [update_of_ne apart, update_self]
  have top : Reached parent root
      (update (update edges new (some node)) old none) node :=
    (Reached.avoid stays start outside).tail (.of_edges newEdge)
  -- Below the moved node every edge is as before, so its path goes through the new one.
  have all : ∀ {target}, Reached parent root edges target → Reached parent root
      (update (update edges new (some node)) old none) target := by
    intro target path
    by_cases below : ReflTransGen (Edge parent edges) node target
    · clear path
      induction below with
      | refl => exact top
      | @tail middle last _ step ih =>
        by_cases isNode : last = node
        · exact isNode ▸ top
        · obtain ⟨key, from_, there⟩ := step
          exact ih.tail ⟨key, from_, stays there isNode⟩
    · exact Reached.avoid stays path below
  refine .of_root_free ?_ ?_ ?_
  · intro first second target found found'
    obtain ⟨rfl, rfl⟩ | ⟨notOld, there⟩ := moved found
    · obtain ⟨rfl, _⟩ | ⟨notOld', there'⟩ := moved found'
      · rfl
      · exact absurd (tree.once' there' edge) notOld'
    · obtain ⟨rfl, rfl⟩ | ⟨_, there'⟩ := moved found'
      · exact absurd (tree.once' there edge) notOld
      · exact tree.once' there there'
  · intro probe target found
    obtain ⟨rfl, _⟩ | ⟨_, there⟩ := moved found
    · exact all start
    · exact all (tree.reached there)
  · intro probe found
    obtain ⟨_, isNode⟩ | ⟨_, there⟩ := moved found
    · exact tree.root_free old (isNode ▸ edge)
    · exact tree.root_free probe there

end

end Updates

end M4KK1.Lib.RootedTree

import LibShare.Base

/-!
# libshare — binary trees

The traversals of `shmem_tree.c`. The one in pre-order calls itself on both branches of a node, and
so do the other two: they place the node itself where their order has it, and go through what is
below in pre-order. Every node is visited once in any case.

A node is named by the turns that lead to it, and a traversal is the list of the nodes that the
callback is called on. The callback does not change the branches.

* `shtreeTraverse_iff` — the trees for which an order is the standard one.
-/

namespace LibShare.Mem

/-! ## Trees -/

/-- `shtree_t`, from a node down. -/
inductive Shtree (α : Type)
  | null
  | node (data : α) (left right : Shtree α)

/-- The turns from a node to one below, where a turn to the right is true. -/
abbrev NodePath := List Bool

/-- The order of a traversal. -/
inductive ShtreeOrder
  | preorder
  | inorder
  | postorder
deriving DecidableEq, Repr

variable {α : Type}

/-- The nodes of the left branch, seen from above. -/
def onLeft (nodes : List NodePath) : List NodePath := nodes.map (false :: ·)

/-- The nodes of the right branch, seen from above. -/
def onRight (nodes : List NodePath) : List NodePath := nodes.map (true :: ·)

/-- `shtree_traverse_pre`. -/
def shtreeTraversePre : Shtree α → List NodePath
  | .null => []
  | .node _ left right =>
    [] :: (onLeft (shtreeTraversePre left) ++ onRight (shtreeTraversePre right))

/-- `shtree_traverse_in`. -/
def shtreeTraverseIn : Shtree α → List NodePath
  | .null => []
  | .node _ left right => onLeft (shtreeTraversePre left) ++ [] :: onRight (shtreeTraversePre right)

/-- `shtree_traverse_post`. -/
def shtreeTraversePost : Shtree α → List NodePath
  | .null => []
  | .node _ left right =>
    onLeft (shtreeTraversePre left) ++ onRight (shtreeTraversePre right) ++ [[]]

/-- `shtree_traverse`. -/
def shtreeTraverse (node : Shtree α) : ShtreeOrder → List NodePath
  | .preorder => shtreeTraversePre node
  | .inorder => shtreeTraverseIn node
  | .postorder => shtreeTraversePost node

/-! ## The standard orders -/

/-- A node with what is before and after it in an order. -/
def ShtreeOrder.place (order : ShtreeOrder) (left right : List NodePath) : List NodePath :=
  match order with
  | .preorder => [] :: (left ++ right)
  | .inorder => left ++ [] :: right
  | .postorder => left ++ right ++ [[]]

/-- The standard sequence of an order. -/
def standardOrder (order : ShtreeOrder) : Shtree α → List NodePath
  | .null => []
  | .node _ left right =>
    order.place (onLeft (standardOrder order left)) (onRight (standardOrder order right))

/-- There is a node at a path. -/
def Shtree.HasNode : Shtree α → NodePath → Prop
  | .null, _ => False
  | .node _ _ _, [] => True
  | .node _ left _, false :: path => left.HasNode path
  | .node _ _ right, true :: path => right.HasNode path

/-- No node has a left branch. -/
def Shtree.NoLeft : Shtree α → Prop
  | .null => True
  | .node _ left right => left = .null ∧ right.NoLeft

/-- There is one node at most. -/
def Shtree.Single : Shtree α → Prop
  | .null => True
  | .node _ left right => left = .null ∧ right = .null

/-- The branches of the root are such that an order goes through them as the pre-order does. -/
def Shtree.Ordered (order : ShtreeOrder) : Shtree α → Prop
  | .null => True
  | .node _ left right =>
    match order with
    | .preorder => True
    | .inorder => left.NoLeft ∧ right.NoLeft
    | .postorder => left.Single ∧ right.Single

/-! ## Every node once -/

variable {left right xs ys : List NodePath}

theorem shtreeTraverse_node (data : α) (left right : Shtree α) (order : ShtreeOrder) :
    shtreeTraverse (.node data left right) order =
      order.place (onLeft (shtreeTraversePre left)) (onRight (shtreeTraversePre right)) := by
  cases order <;> rfl

theorem place_perm (order : ShtreeOrder) :
    (order.place left right).Perm ([] :: (left ++ right)) := by
  cases order with
  | preorder => exact List.Perm.refl _
  | inorder => exact List.perm_middle
  | postorder => exact List.perm_append_comm

theorem mem_onLeft {path : NodePath} : path ∈ onLeft xs ↔ ∃ rest ∈ xs, path = false :: rest := by
  rw [onLeft, List.mem_map]
  exact ⟨fun ⟨rest, hmem, heq⟩ => ⟨rest, hmem, heq.symm⟩, fun ⟨rest, hmem, heq⟩ =>
    ⟨rest, hmem, heq.symm⟩⟩

theorem mem_onRight {path : NodePath} : path ∈ onRight xs ↔ ∃ rest ∈ xs, path = true :: rest := by
  rw [onRight, List.mem_map]
  exact ⟨fun ⟨rest, hmem, heq⟩ => ⟨rest, hmem, heq.symm⟩, fun ⟨rest, hmem, heq⟩ =>
    ⟨rest, hmem, heq.symm⟩⟩

/-- A node apart from those of its branches. -/
theorem place_nodup (hleft : xs.Nodup) (hright : ys.Nodup) (order : ShtreeOrder) :
    (order.place (onLeft xs) (onRight ys)).Nodup := by
  rw [(place_perm order).nodup_iff, List.nodup_cons, List.nodup_append]
  refine ⟨?_, hleft.map List.cons_injective, hright.map List.cons_injective, ?_⟩
  · intro hmem
    rcases List.mem_append.mp hmem with hmem | hmem
    · obtain ⟨rest, -, heq⟩ := mem_onLeft.mp hmem
      cases heq
    · obtain ⟨rest, -, heq⟩ := mem_onRight.mp hmem
      cases heq
  · intro p hp q hq heq
    obtain ⟨restL, -, rfl⟩ := mem_onLeft.mp hp
    obtain ⟨restR, -, rfl⟩ := mem_onRight.mp hq
    cases heq

theorem traversePre_nodup : ∀ node : Shtree α, (shtreeTraversePre node).Nodup := by
  intro node
  induction node with
  | null => exact List.nodup_nil
  | node data left right ihl ihr => exact place_nodup ihl ihr .preorder

theorem mem_place {path : NodePath} (order : ShtreeOrder) :
    path ∈ order.place left right ↔ path = [] ∨ path ∈ left ∨ path ∈ right := by
  rw [(place_perm order).mem_iff, List.mem_cons, List.mem_append]

theorem mem_traversePre : ∀ (node : Shtree α) (path : NodePath),
    path ∈ shtreeTraversePre node ↔ node.HasNode path := by
  intro node
  induction node with
  | null => exact fun path => iff_of_false List.not_mem_nil id
  | node data left right ihl ihr =>
    intro path
    rw [← shtreeTraverse, shtreeTraverse_node, mem_place, mem_onLeft, mem_onRight]
    rcases path with _ | ⟨turn, rest⟩
    · exact iff_of_true (Or.inl rfl) trivial
    · cases turn with
      | false => simpa [Shtree.HasNode] using ihl rest
      | true => simpa [Shtree.HasNode] using ihr rest

/-- A traversal visits every node once, and nothing else. -/
theorem shtreeTraverse_once (node : Shtree α) (order : ShtreeOrder) :
    (shtreeTraverse node order).Nodup ∧ ∀ path, path ∈ shtreeTraverse node order ↔
    node.HasNode path := by
  have hsame : (shtreeTraverse node order).Perm (shtreeTraversePre node) := by
    cases node with
    | null => cases order <;> exact List.Perm.refl _
    | node data left right =>
      rw [shtreeTraverse_node]
      exact place_perm order
  refine ⟨hsame.nodup_iff.mpr (traversePre_nodup node), fun path => ?_⟩
  rw [hsame.mem_iff]
  exact mem_traversePre node path

/-! ## Orders -/

theorem traversePre_eq_standard (node : Shtree α) :
    shtreeTraversePre node = standardOrder .preorder node := by
  induction node with
  | null => rfl
  | node data left right ihl ihr =>
    rw [shtreeTraversePre, ihl, ihr, standardOrder, ShtreeOrder.place]

theorem length_place (order : ShtreeOrder) :
    (order.place left right).length = left.length + right.length + 1 := by
  rw [(place_perm order).length_eq, List.length_cons, List.length_append]

/-- All orders have as many nodes. -/
theorem length_standardOrder (order order' : ShtreeOrder) (node : Shtree α) :
    (standardOrder order node).length = (standardOrder order' node).length := by
  induction node with
  | null => rfl
  | node data left right ihl ihr =>
    rw [standardOrder, standardOrder, length_place, length_place, onLeft, onLeft, onRight, onRight,
      List.length_map, List.length_map, List.length_map, List.length_map, ihl, ihr]

theorem standardOrder_eq_nil {order : ShtreeOrder} {node : Shtree α} :
    standardOrder order node = [] ↔ node = .null := by
  constructor
  · intro hnil
    cases node with
    | null => rfl
    | node data left right =>
      have hlen := congrArg List.length hnil
      rw [standardOrder, length_place] at hlen
      cases hlen
  · rintro rfl
    rfl

/-- The same nodes on both sides of one. -/
theorem place_inj {left' right' : List NodePath} (order : ShtreeOrder)
    (hlen : left.length = left'.length)
    (hlen' : right.length = right'.length) :
    order.place left right = order.place left' right' ↔ left = left' ∧ right = right' := by
  constructor
  · intro heq
    cases order with
    | preorder => exact List.append_inj (List.cons_injective heq) hlen
    | inorder =>
      obtain ⟨hl, hr⟩ := List.append_inj heq hlen
      exact ⟨hl, List.cons_injective hr⟩
    | postorder => exact List.append_inj (List.append_cancel_right heq) hlen
  · rintro ⟨rfl, rfl⟩
    rfl

theorem onLeft_inj : onLeft xs = onLeft ys ↔ xs = ys :=
  List.map_inj_right fun _ _ => List.cons_injective.eq_iff.mp

theorem onRight_inj : onRight xs = onRight ys ↔ xs = ys :=
  List.map_inj_right fun _ _ => List.cons_injective.eq_iff.mp

/-- The pre-order begins with the node itself, which the in-order does only without a left branch.
-/
theorem pre_eq_in_iff (node : Shtree α) :
    standardOrder .preorder node = standardOrder .inorder node ↔ node.NoLeft := by
  induction node with
  | null => exact iff_of_true rfl trivial
  | node data left right ihl ihr =>
    rw [standardOrder, standardOrder, ShtreeOrder.place, ShtreeOrder.place, Shtree.NoLeft]
    by_cases hnull : left = .null
    · subst hnull
      rw [standardOrder, standardOrder, onLeft, List.map_nil, List.nil_append, List.nil_append,
        List.cons_inj_right, onRight_inj, ihr]
      exact (and_iff_right rfl).symm
    · refine iff_of_false ?_ fun h => hnull h.1
      intro heq
      -- a node on the left comes first
      have hne : standardOrder .inorder left ≠ [] := mt standardOrder_eq_nil.mp hnull
      obtain ⟨path, rest, hcons⟩ := List.exists_cons_of_ne_nil hne
      have hfirst : onLeft (path :: rest) = (false :: path) :: onLeft rest := rfl
      rw [hcons, hfirst, List.cons_append] at heq
      exact absurd (List.cons.inj heq).1 (List.cons_ne_nil _ _).symm

/-- The post-order ends with the node itself, which the pre-order does only for a single one. -/
theorem pre_eq_post_iff (node : Shtree α) :
    standardOrder .preorder node = standardOrder .postorder node ↔ node.Single := by
  cases node with
  | null => exact iff_of_true rfl trivial
  | node data left right =>
    rw [standardOrder, standardOrder, ShtreeOrder.place, ShtreeOrder.place, Shtree.Single]
    constructor
    · intro heq
      by_contra hbranch
      have hne : onLeft (standardOrder .postorder left) ++
          onRight (standardOrder .postorder right) ≠ [] := by
        intro hnil
        obtain ⟨hl, hr⟩ := List.append_eq_nil_iff.mp hnil
        exact hbranch ⟨standardOrder_eq_nil.mp (List.map_eq_nil_iff.mp hl),
          standardOrder_eq_nil.mp (List.map_eq_nil_iff.mp hr)⟩
      obtain ⟨path, rest, hcons⟩ := List.exists_cons_of_ne_nil hne
      have hmem : path ∈ onLeft (standardOrder .postorder left) ++
          onRight (standardOrder .postorder right) := by
        rw [hcons]
        exact List.mem_cons_self
      rw [hcons, List.cons_append] at heq
      rw [← (List.cons.inj heq).1] at hmem
      rcases List.mem_append.mp hmem with hmem | hmem
      · obtain ⟨_, _, hbad⟩ := mem_onLeft.mp hmem
        cases hbad
      · obtain ⟨_, _, hbad⟩ := mem_onRight.mp hmem
        cases hbad
    · rintro ⟨rfl, rfl⟩
      rfl

/-- The callback is called on every node once, in the standard sequence, for the trees whose
branches the order goes through as the pre-order does: any tree in pre-order, those without left
branches below the root's own in in-order, and those of a root and its leaves in post-order. -/
theorem shtreeTraverse_iff (node : Shtree α) (order : ShtreeOrder) :
    ((shtreeTraverse node order).Nodup ∧ (∀ path, path ∈ shtreeTraverse node order ↔
      node.HasNode path) ∧ shtreeTraverse node order = standardOrder order node) ↔
        node.Ordered order := by
  obtain ⟨honce, hall⟩ := shtreeTraverse_once node order
  rw [and_iff_right honce, and_iff_right hall]
  cases node with
  | null => cases order <;> exact iff_of_true rfl trivial
  | node data left right =>
    -- the subtrees are as long in every order, so they can be compared apart
    have hlen : ∀ t : Shtree α, (onLeft (standardOrder .preorder t)).length =
        (onLeft (standardOrder order t)).length := by
      intro t
      rw [onLeft, onLeft, List.length_map, List.length_map]
      exact length_standardOrder _ _ t
    have hlen' : ∀ t : Shtree α, (onRight (standardOrder .preorder t)).length =
        (onRight (standardOrder order t)).length := by
      intro t
      rw [onRight, onRight, List.length_map, List.length_map]
      exact length_standardOrder _ _ t
    rw [shtreeTraverse_node, standardOrder, traversePre_eq_standard, traversePre_eq_standard,
      place_inj order (hlen left) (hlen' right), onLeft_inj, onRight_inj]
    cases order with
    | preorder => exact iff_of_true ⟨rfl, rfl⟩ trivial
    | inorder => exact and_congr (pre_eq_in_iff left) (pre_eq_in_iff right)
    | postorder => exact and_congr (pre_eq_post_iff left) (pre_eq_post_iff right)

/-- A root with a branch of two nodes is not in post-order. -/
theorem post_order_of_three :
    shtreeTraverse (.node () (.node () (.node () .null .null) .null) .null) .postorder ≠
    standardOrder .postorder (.node () (.node () (.node () .null .null) .null) .null) := by
  decide

end LibShare.Mem

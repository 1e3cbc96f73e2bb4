import Mathlib.Data.List.Basic
import Symbolic.Expr.Sharing
import Symbolic.Proofs.Children

/-! Measuring expressions with shared nodes: the loop ends, and with the height. A marked node comes
to the top when all its children are known, so that none of them is passed over. -/
namespace Symbolic

namespace Expr

theorem foldl_max_depth (es : List Expr) (bound : Nat) :
    (es.map depth).foldl max bound = max bound (depthArgs es) := by
  induction es generalizing bound with
  | nil => simp [depthArgs]
  | cons e rest ih => rw [List.map_cons, List.foldl_cons, ih, depthArgs, Nat.max_assoc]

theorem depth_eq_max? (e : Expr) : e.depth = (e.children.map depth).max?.elim 1 (· + 1) := by
  rw [depth_eq]
  cases e.children with
  | nil => rfl
  | cons first rest =>
    rw [List.map_cons, List.max?_cons', foldl_max_depth, depthArgs]
    rfl

end Expr

namespace Sharing

variable {ν ι : Type} {s : Sharing ν ι} {n root : ν} {marked : Bool} {rest stack : List (ν × Bool)}
  {m : Measurement ν ι} {heights heights' : List (ι × Nat)} {above above' : List ι}

/-- A bound on the steps left: one for a marked node, and two for each node of the tree below any
other one, itself included. -/
def work (s : Sharing ν ι) : List (ν × Bool) → Nat
  | [] => 0
  | (n, marked) :: rest => (if marked then 1 else 2 * (s.expr n).size) + s.work rest

theorem work_unmarked (ns : List ν) (stack : List (ν × Bool)) :
    s.work (ns.reverse.map (·, false) ++ stack) =
      2 * Expr.sizeArgs (ns.map s.expr) + s.work stack := by
  induction ns generalizing stack with
  | nil => simp [Expr.sizeArgs]
  | cons n rest ih =>
    rw [List.reverse_cons, List.map_append, List.append_assoc, ih]
    simp [work, Expr.sizeArgs]
    omega

theorem work_lt_work_cons (n : ν) (marked : Bool) (rest : List (ν × Bool)) :
    s.work rest < s.work ((n, marked) :: rest) := by
  have := Expr.size_eq (s.expr n)
  rw [work]
  split <;> omega

/-- A node is known, or will be once the nodes above it are. -/
def Awaited [DecidableEq ι] (s : Sharing ν ι) (heights : List (ι × Nat)) (above : List ι) (n : ν) :
    Prop :=
  (s.known? heights n).isSome ∨ s.identity n ∈ above

/-- The children of a marked node are known or above it. So is the root, where the stack ends. -/
def Ordered [DecidableEq ι] (s : Sharing ν ι) (root : ν) (heights : List (ι × Nat)) :
    List ι → List (ν × Bool) → Prop
  | above, [] => s.Awaited heights above root
  | above, (n, marked) :: rest =>
    (marked = true → ∀ c ∈ s.children n, s.Awaited heights above c) ∧
      Ordered s root heights (s.identity n :: above) rest

/-- The known heights are right, and no node is on top too early. -/
structure Sound [DecidableEq ι] (s : Sharing ν ι) (root : ν) (m : Measurement ν ι) : Prop where
  right : ∀ n height, s.known? m.heights n = some height → height = (s.expr n).depth
  ordered : s.Ordered root m.heights [] m.stack

variable [DecidableEq ι]

theorem work_step (s : Sharing ν ι) (m : Measurement ν ι) :
    s.work (s.step m).stack ≤ s.work m.stack - 1 := by
  obtain ⟨heights, stack⟩ := m
  match stack with
  | [] => exact Nat.le_refl _
  | (n, marked) :: rest =>
    have hpop := work_lt_work_cons (s := s) n marked rest
    simp only [step]
    split
    · exact Nat.le_sub_one_of_lt hpop
    split
    · exact Nat.le_sub_one_of_lt hpop
    split
    · exact Nat.le_sub_one_of_lt hpop
    · next hmarked =>
      have hsize := Expr.size_eq (s.expr n)
      rw [work_unmarked, s.map_children, work, work, if_neg hmarked, if_pos rfl]
      omega

theorem stack_steps_eq_nil {count : Nat} (h : s.work m.stack ≤ count) :
    (s.steps count m).stack = [] := by
  induction count generalizing m with
  | zero =>
    match hstack : m.stack with
    | [] => rfl
    | (n, marked) :: rest =>
      have := work_lt_work_cons (s := s) n marked rest
      rw [hstack] at h
      omega
  | succ count ih =>
    have := work_step s m
    exact ih (by omega)

theorem known?_eq_of_identity {c : ν} (h : s.identity c = s.identity n) :
    s.known? heights c = s.known? heights n := by
  rw [known?, known?, h]

theorem known?_cons (c : ν) (height : Nat) :
    s.known? ((s.identity n, height) :: heights) c =
      if s.identity c = s.identity n then some height else s.known? heights c := by
  rw [known?, List.lookup_cons]
  split <;> simp_all [known?]

theorem awaited_nil_iff : s.Awaited heights [] n ↔ (s.known? heights n).isSome := by
  simp [Awaited]

theorem awaited_cons_iff {i : ι} :
    s.Awaited heights (i :: above) n ↔ s.identity n = i ∨ s.Awaited heights above n := by
  rw [Awaited, Awaited, List.mem_cons, or_left_comm]

theorem Ordered.mono (h : s.Ordered root heights above stack)
    (hmono : ∀ n, s.Awaited heights above n → s.Awaited heights' above' n) :
    s.Ordered root heights' above' stack := by
  induction stack generalizing above above' with
  | nil => exact hmono root h
  | cons entry rest ih =>
    obtain ⟨hchildren, hrest⟩ := h
    refine ⟨fun hmarked c hc => hmono c (hchildren hmarked c hc), ih hrest fun n hn => ?_⟩
    exact awaited_cons_iff.mpr ((awaited_cons_iff.mp hn).imp_right (hmono n))

theorem ordered_unmarked_iff (ns : List ν) :
    s.Ordered root heights above (ns.reverse.map (·, false) ++ stack) ↔
      s.Ordered root heights (ns.map s.identity ++ above) stack := by
  induction ns generalizing stack with
  | nil => rfl
  | cons n rest ih =>
    rw [List.reverse_cons, List.map_append, List.append_assoc, ih]
    simp [Ordered]

theorem sound_start (s : Sharing ν ι) (root : ν) : s.Sound root (start root) where
  right := nofun
  ordered := ⟨nofun, Or.inr (List.mem_singleton_self _)⟩

/-- No child is passed over. -/
theorem Sound.known_of_mem_children (h : s.Sound root ⟨heights, (n, true) :: rest⟩) :
    ∀ c ∈ s.children n, (s.known? heights c).isSome :=
  fun c hc => awaited_nil_iff.mp (h.ordered.1 rfl c hc)

theorem Sound.heightAbove_eq (h : s.Sound root ⟨heights, (n, true) :: rest⟩) :
    s.heightAbove heights n = (s.expr n).depth := by
  have hchildren : (s.children n).filterMap (s.known? heights) =
      (s.children n).map (Expr.depth ∘ s.expr) := by
    refine List.filterMap_eq_map_iff_forall_eq_some.mpr fun c hc => ?_
    obtain ⟨height, hheight⟩ := Option.isSome_iff_exists.mp (h.known_of_mem_children c hc)
    rw [hheight, h.right c height hheight, Function.comp]
  rw [heightAbove, hchildren, ← List.map_map, s.map_children, Expr.foldl_max_depth, Nat.zero_max,
    ← Expr.depth_eq]

theorem Sound.skip (h : s.Sound root ⟨heights, (n, marked) :: rest⟩)
    (hknown : (s.known? heights n).isSome) : s.Sound root ⟨heights, rest⟩ where
  right := h.right
  ordered := by
    refine h.ordered.2.mono fun c hc => ?_
    obtain hsame | hc := awaited_cons_iff.mp hc
    · exact Or.inl (known?_eq_of_identity hsame ▸ hknown)
    · exact hc

theorem Sound.measure {height : Nat} (h : s.Sound root ⟨heights, (n, marked) :: rest⟩)
    (hheight : height = (s.expr n).depth) :
    s.Sound root ⟨(s.identity n, height) :: heights, rest⟩ where
  right c found hc := by
    rw [known?_cons] at hc
    split at hc
    · next hsame =>
      cases hc
      rw [s.expr_eq c n hsame, hheight]
    · exact h.right c found hc
  ordered := by
    refine h.ordered.2.mono fun c hc => ?_
    rw [awaited_nil_iff, known?_cons]
    split
    · rfl
    · next hother =>
      exact awaited_nil_iff.mp ((awaited_cons_iff.mp hc).resolve_left hother)

theorem Sound.mark (h : s.Sound root ⟨heights, (n, false) :: rest⟩) :
    s.Sound root ⟨heights, (s.children n).reverse.map (·, false) ++ (n, true) :: rest⟩ where
  right := h.right
  ordered := by
    -- The marked node takes the place that it had before: nothing below loses what it waits for.
    refine (ordered_unmarked_iff _).mpr ⟨fun _ c hc => ?_, h.ordered.2.mono fun c hc => ?_⟩
    · rw [List.append_nil]
      exact Or.inr (List.mem_map_of_mem hc)
    · refine awaited_cons_iff.mpr ((awaited_cons_iff.mp hc).imp_right fun hknown => ?_)
      exact Or.inl (awaited_nil_iff.mp hknown)

theorem Sound.step (h : s.Sound root m) : s.Sound root (s.step m) := by
  obtain ⟨heights, stack⟩ := m
  match stack with
  | [] => exact h
  | (n, marked) :: rest =>
    simp only [Sharing.step]
    split
    · next hknown => exact h.skip hknown
    split
    · next hatomic =>
      refine h.measure ?_
      rw [Expr.depth_eq, Expr.children_of_isAtomic hatomic]
      rfl
    cases marked with
    | true => exact h.measure h.heightAbove_eq
    | false => exact h.mark

theorem Sound.steps (h : s.Sound root m) (count : Nat) : s.Sound root (s.steps count m) := by
  induction count generalizing m with
  | zero => exact h
  | succ count ih => exact ih h.step

theorem Sound.result_eq (h : s.Sound root m) (hended : m.stack = []) :
    s.result root m = (s.expr root).depth := by
  have hroot := h.ordered
  rw [hended] at hroot
  obtain ⟨height, hheight⟩ := Option.isSome_iff_exists.mp (awaited_nil_iff.mp hroot)
  rw [result, hheight, Option.getD_some, h.right root height hheight]

theorem stack_steps_start {count : Nat} (h : 2 * (s.expr root).size ≤ count) :
    (s.steps count (start root)).stack = [] :=
  stack_steps_eq_nil h

theorem depth_eq_depth (s : Sharing ν ι) (root : ν) : s.depth root = (s.expr root).depth :=
  ((sound_start s root).steps _).result_eq (stack_steps_start (Nat.le_refl _))

/-- However the nodes of an expression are shared, measuring one comes to an end, and wherever it
ends the result is the height: one without children, and otherwise one more than the highest
child. -/
theorem depth_ofIdentity {e : Expr} (identity : e.Node → ι)
    (h : ∀ m n, identity m = identity n → m.expr = n.expr) (n : e.Node) :
    let s := ofIdentity identity h
    (∀ count, 2 * n.expr.size ≤ count → (s.steps count (start n)).stack = []) ∧
    (∀ count, (s.steps count (start n)).stack = [] →
      s.result n (s.steps count (start n)) = n.expr.depth) ∧
    s.depth n = n.expr.depth ∧
    n.expr.depth = (n.expr.children.map Expr.depth).max?.elim 1 (· + 1) := by
  intro s
  refine ⟨fun count hcount => stack_steps_start hcount, fun count hended => ?_, ?_, ?_⟩
  · exact ((sound_start s n).steps count).result_eq hended
  · exact depth_eq_depth s n
  · exact Expr.depth_eq_max? n.expr

/-- Two sums with one identity, though the atoms below them are told apart by their places. -/
theorem depth_of_shared_sum :
    let sum := Expr.nary .add [(.int 2, 1), (.symbol "x", 1)]
    let e := Expr.call (.symbol "f") [sum, .call (.symbol "g") [sum]]
    let identity := fun n : e.Node => (n.expr, if n.expr.isAtomic then n.path else [])
    ∃ h : ∀ m n, identity m = identity n → m.expr = n.expr,
      let s := ofIdentity identity h
      (s.steps 20 (start (.root e))).stack = [] ∧
        s.result (.root e) (s.steps 20 (start (.root e))) = 4 ∧ s.depth (.root e) = 4 := by
  intro sum e identity
  have h : ∀ m n, identity m = identity n → m.expr = n.expr := fun _ _ hsame =>
    congrArg Prod.fst hsame
  obtain ⟨hends, hresult, hdepth, _⟩ := depth_ofIdentity identity h (.root e)
  have hended := hends 20 (by decide)
  exact ⟨h, hended, hresult 20 hended, hdepth⟩

end Sharing
end Symbolic

import Mathlib.Data.List.Basic
import Symbolic.Rules.Default

/-! The rules that a node is offered are the registered ones whose trigger covers its operator. -/
namespace Symbolic.Registry

variable {registry : Registry} {op : Operator} {rule : Rule}

/-- The positions that are stored for an operator are those of the rules that cover it. -/
def Indexed (registry : Registry) : Prop :=
  ∀ op : Operator, ∃ positions, registry.dispatch[op.index]? = some positions ∧
    (∀ position ∈ positions, position < registry.rules.length) ∧
    positions.filterMap (fun position => registry.rules[position]?) =
      registry.rules.filter fun rule => rule.trigger.covers op

theorem indexed_empty : empty.Indexed := by
  intro op
  refine ⟨[], ?_, by simp, rfl⟩
  simp only [empty, List.getElem?_map, Operator.all_getElem?_index]
  rfl

theorem dispatch_register {positions : List Nat} (rule : Rule)
    (h : registry.dispatch[op.index]? = some positions) :
    (registry.register rule).dispatch[op.index]? =
      some (if rule.trigger.covers op then positions ++
        [registry.rules.length] else positions) := by
  rw [register, List.getElem?_zipWith, Operator.all_getElem?_index, h]

/-- The position of a further rule is the number of those before it. -/
theorem lt_of_mem_extended {positions : List Nat} {count : Nat} {covered : Bool}
    (h : ∀ position ∈ positions, position < count) :
    ∀ position ∈ (if covered then positions ++ [count] else positions), position < count + 1 := by
  intro position hm
  split at hm
  · rcases List.mem_append.mp hm with hm | hm
    · exact Nat.lt_succ_of_lt (h position hm)
    · rw [List.mem_singleton.mp hm]
      exact Nat.lt_succ_self count
  · exact Nat.lt_succ_of_lt (h position hm)

theorem indexed_register (h : registry.Indexed) (rule : Rule) :
    (registry.register rule).Indexed := by
  intro op
  obtain ⟨positions, hdispatch, hlt, hrules⟩ := h op
  refine ⟨_, dispatch_register rule hdispatch, ?_, ?_⟩
  · simp only [register, List.length_append, List.length_singleton]
    exact lt_of_mem_extended hlt
  · -- The positions that were there still find the rules that they found.
    have earlier : positions.filterMap (fun position => (registry.rules ++ [rule])[position]?) =
        registry.rules.filter fun rule => rule.trigger.covers op := by
      rw [← hrules]
      apply List.filterMap_congr
      intro position hm
      rw [List.getElem?_append_left (hlt position hm)]
    simp only [register, List.filter_append]
    split
    · next hc => simp [List.filterMap_append, earlier, hc]
    · next hc => simp [earlier, hc]

theorem indexed_registerAll (h : registry.Indexed) (rules : List Rule) :
    (registry.registerAll rules).Indexed := by
  induction rules generalizing registry with
  | nil => exact h
  | cons rule rest ih => exact ih (indexed_register h rule)

theorem rules_registerAll (registry : Registry) (rules : List Rule) :
    (registry.registerAll rules).rules = registry.rules ++ rules := by
  induction rules generalizing registry with
  | nil => exact (List.append_nil _).symm
  | cons rule rest ih =>
    refine (ih (registry.register rule)).trans ?_
    simp only [register, List.append_assoc, List.singleton_append]

theorem rules_ofRules (rules : List Rule) : (ofRules rules).rules = rules :=
  rules_registerAll empty rules

theorem candidates_of_indexed (h : registry.Indexed) (op : Operator) :
    registry.candidates op = registry.rules.filter fun rule => rule.trigger.covers op := by
  obtain ⟨positions, hdispatch, _, hrules⟩ := h op
  rw [candidates, hdispatch, Option.getD_some, hrules]

theorem candidates_ofRules (rules : List Rule) (op : Operator) :
    (ofRules rules).candidates op = rules.filter fun rule => rule.trigger.covers op := by
  have hindexed : (ofRules rules).Indexed := indexed_registerAll indexed_empty rules
  rw [candidates_of_indexed hindexed, rules_ofRules]

/-- A further rule is offered last, and only to the operators that it covers. -/
theorem candidates_register (h : registry.Indexed) (rule : Rule) (op : Operator) :
    (registry.register rule).candidates op =
      if rule.trigger.covers op then registry.candidates op ++
        [rule] else registry.candidates op := by
  rw [candidates_of_indexed (indexed_register h rule), candidates_of_indexed h]
  simp only [register, List.filter_append]
  split
  · next hc => simp [hc]
  · next hc => simp [hc]

/-- Every stored position is that of a rule. -/
def InRange (registry : Registry) : Prop :=
  ∀ positions ∈ registry.dispatch, ∀ position ∈ positions, position < registry.rules.length

theorem inRange_empty : empty.InRange := by
  intro positions hm position hp
  obtain ⟨_, _, rfl⟩ := List.mem_map.mp hm
  cases hp

theorem inRange_register (h : registry.InRange) (rule : Rule) :
    (registry.register rule).InRange := by
  intro positions hm
  simp only [register, List.length_append, List.length_singleton,
    ← List.map_uncurry_zip_eq_zipWith] at hm ⊢
  obtain ⟨⟨op, earlier⟩, hzip, rfl⟩ := List.mem_map.mp hm
  exact lt_of_mem_extended (h earlier (List.of_mem_zip hzip).2)

theorem inRange_registerAll (h : registry.InRange) (rules : List Rule) :
    (registry.registerAll rules).InRange := by
  induction rules generalizing registry with
  | nil => exact h
  | cons rule rest ih => exact ih (inRange_register h rule)

/-- However rules have been registered, the index finds for an operator what a scan of all rules
finds, in the same order and as often, and none of its positions is beyond the rules. A further rule
comes last among those of the operators that it covers and changes nothing for the others. -/
theorem candidates_agree_with_scan (rules : List Rule) (op : Operator) :
    (ofRules rules).rules = rules ∧
      (ofRules rules).candidates op = (rules.filter fun rule => rule.trigger.covers op) ∧
      (∀ positions ∈ (ofRules rules).dispatch, ∀ position ∈ positions, position < rules.length) ∧
      ∀ rule, ((ofRules rules).register rule).candidates op =
        if rule.trigger.covers op then (ofRules rules).candidates op ++ [rule]
        else (ofRules rules).candidates op := by
  have hrange : (ofRules rules).InRange := inRange_registerAll inRange_empty rules
  rw [InRange, rules_ofRules] at hrange
  exact ⟨rules_ofRules rules, candidates_ofRules rules op, hrange,
    fun rule => candidates_register (indexed_registerAll indexed_empty rules) rule op⟩

/-- A rule that is registered twice is offered twice, in its two places. -/
example : ((ofRules [Rules.selfCompare, Rules.subtractCompare, Rules.flatten,
  Rules.selfCompare]).candidates
    (.binary .lt)).map Rule.name = ["self-compare", "subtract-compare", "self-compare"] := by rfl

theorem candidates_default (op : Operator) :
    default.candidates op = Rules.all.filter fun rule => rule.trigger.covers op :=
  candidates_ofRules Rules.all op

theorem mem_rules_of_mem_candidates (h : rule ∈ registry.candidates op) :
    rule ∈ registry.rules := by
  obtain ⟨position, _, hp⟩ := List.mem_filterMap.mp h
  exact List.mem_of_getElem? hp

/-- Of the default rules only the folding of binary operators reads the configuration, for the word
width of rotations. -/
theorem ignoresLimits_default : default.IgnoresLimits := by
  intro rule hm parent config config' e hw
  simp only [default, rules_ofRules] at hm
  simp only [Rules.all, Rules.semigroupFamily, Rules.foldingFamily, Rules.comparisonFamily,
    Rules.factoringFamily, List.cons_append, List.nil_append, List.mem_cons, List.not_mem_nil,
    or_false] at hm
  rcases hm with rfl | rfl | rfl | rfl | rfl | rfl | rfl | rfl | rfl | rfl | rfl | rfl | rfl | rfl |
    rfl
  case inr.inr.inr.inr.inl =>
    refine ⟨rfl, ?_⟩
    simp only [Rules.foldBinary, hw]
  all_goals exact ⟨rfl, rfl⟩

theorem ignoresParent_default : default.IgnoresParent := by
  intro rule hm parent parent' config e
  simp only [default, rules_ofRules] at hm
  simp only [Rules.all, Rules.semigroupFamily, Rules.foldingFamily, Rules.comparisonFamily,
    Rules.factoringFamily, List.cons_append, List.nil_append, List.mem_cons, List.not_mem_nil,
    or_false] at hm
  rcases hm with rfl | rfl | rfl | rfl | rfl | rfl | rfl | rfl | rfl | rfl | rfl | rfl | rfl | rfl |
    rfl
  all_goals exact ⟨rfl, rfl⟩

end Symbolic.Registry

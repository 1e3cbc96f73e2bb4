import Symbolic.Expr.Text
import Symbolic.Proofs.Children

/-! The class of its operator tells how an operation is written. Only a call of one argument is
written as a binary operation. -/
namespace Symbolic

/-- Whether a tag is written with letters. -/
def Operator.isAlphabetic (op : Operator) : Bool := op.tag.toList.head?.any Char.isAlpha

/-- What is written before the operands. -/
def Operator.opening (op : Operator) : String :=
  match op.operatorClass with
  | .semigroup | .binary => "("
  | .unary | .ternary | .variadic => op.tag ++ "("

/-- What is written between two operands. -/
def Operator.separator (op : Operator) : String :=
  match op.operatorClass with
  | .semigroup => op.tag
  | .binary => if op.isAlphabetic then " " ++ op.tag ++ " " else op.tag
  | .unary | .ternary | .variadic => ", "

/-- The text of an operation, from those of its operands. -/
def Operator.write (op : Operator) (texts : List String) : String :=
  op.opening ++ op.separator.intercalate texts ++ ")"

namespace Expr

/-- The texts of the operands, each with its multiplicity if it has one other than one. -/
def operandTexts (print : Expr → String) : Expr → List String
  | .nary _ terms => terms.map fun entry => countedText entry.2 (print entry.1)
  | e => e.ordered.map print

mutual

/-- The text by the class of the operator at every node. -/
def classText : Expr → String
  | .constant value => value.toText
  | .symbol name => name
  | .nary op terms => (Operator.semigroup op).write (termClassTexts terms)
  | .unary op arg => (Operator.unary op).write [arg.classText]
  | .binary op lhs rhs => (Operator.binary op).write [lhs.classText, rhs.classText]
  | .conditional test whenTrue whenFalse =>
    Operator.conditional.write [test.classText, whenTrue.classText, whenFalse.classText]
  | .call callee args => Operator.call.write (callee.classText :: argClassTexts args)
termination_by structural e => e

def termClassTexts : List (Expr × Nat) → List String
  | [] => []
  | (e, count) :: rest => countedText count e.classText :: termClassTexts rest
termination_by structural terms => terms

def argClassTexts : List Expr → List String
  | [] => []
  | e :: rest => e.classText :: argClassTexts rest
termination_by structural args => args

end

/-- A call of one argument, which has two operands as a binary operation has. -/
def IsCallOfOne (e : Expr) : Prop := e.op? = some .call ∧ e.ordered.length = 2

instance (e : Expr) : Decidable e.IsCallOfOne := inferInstanceAs (Decidable (_ ∧ _))

variable {e : Expr} {op : Operator}

theorem isCallOfOne_iff : e.IsCallOfOne ↔ ∃ callee arg, e = .call callee [arg] := by
  constructor
  · rintro ⟨hop, hlength⟩
    cases e with
    | call callee args =>
      obtain ⟨arg, rfl⟩ := List.length_eq_one_iff.mp (Nat.succ.inj hlength)
      exact ⟨callee, arg, rfl⟩
    | constant | symbol | nary | unary | binary | conditional => cases hop
  · rintro ⟨callee, arg, rfl⟩
    exact ⟨rfl, rfl⟩

section operands

variable {f g : Expr → String}

theorem length_countedText (count : Nat) {s t : String} (h : s.length = t.length) :
    (countedText count s).length = (countedText count t).length := by
  unfold countedText
  split
  · exact h
  · simp [String.length_append, h]

theorem countedText_inj {count : Nat} {s t : String} :
    countedText count s = countedText count t ↔ s = t := by
  unfold countedText
  split
  · exact Iff.rfl
  · exact String.append_right_inj _

theorem lengths_operandTexts (h : ∀ c ∈ e.children, (f c).length = (g c).length) :
    (e.operandTexts f).map String.length = (e.operandTexts g).map String.length := by
  cases e with
  | nary op terms =>
    simp only [operandTexts, List.map_map]
    exact List.map_congr_left fun entry hm =>
      length_countedText entry.2 (h entry.1 (List.mem_map_of_mem hm))
  | constant | symbol | unary | binary | conditional | call =>
    simp only [operandTexts, List.map_map]
    exact List.map_congr_left h

theorem operandTexts_eq_iff :
    e.operandTexts f = e.operandTexts g ↔ ∀ c ∈ e.children, f c = g c := by
  cases e with
  | nary op terms =>
    simp only [operandTexts, children, List.map_inj_left, countedText_inj, List.forall_mem_map]
  | constant | symbol | unary | binary | conditional | call =>
    exact List.map_inj_left

end operands
end Expr

/-- Texts that begin with parts of one length are the same only if both parts are. -/
theorem append_inj_of_length {s t s' t' : String} (hlength : s.length = s'.length)
    (h : s ++ t = s' ++ t') : s = s' ∧ t = t' := by
  rw [← String.toList_inj, String.toList_append, String.toList_append] at h
  obtain ⟨hs, ht⟩ := List.append_inj h hlength
  exact ⟨String.toList_inj.mp hs, String.toList_inj.mp ht⟩

/-- Joined texts of the same lengths are as long, and the same only if each of them is. -/
theorem intercalate_of_lengths (sep : String) {texts texts' : List String}
    (h : texts.map String.length = texts'.map String.length) :
    (sep.intercalate texts).length = (sep.intercalate texts').length ∧
      (sep.intercalate texts = sep.intercalate texts' → texts = texts') := by
  induction texts generalizing texts' with
  | nil =>
    obtain rfl : texts' = [] := by simpa using h.symm
    exact ⟨rfl, fun _ => rfl⟩
  | cons s rest ih =>
    match texts' with
    | [] => cases h
    | s' :: rest' =>
      obtain ⟨hs, hrest⟩ := List.cons.inj h
      obtain ⟨hlength, hinjective⟩ := ih hrest
      -- The separator stands before the rest only if there is one.
      match rest, rest' with
      | [], [] => exact ⟨by simpa using hs, by simp⟩
      | [], _ :: _ | _ :: _, [] => cases hrest
      | t :: rest, t' :: rest' =>
        simp only [String.intercalate_cons_cons]
        refine ⟨by simp only [String.length_append, hs, hlength], fun heq => ?_⟩
        obtain ⟨hfirst, hothers⟩ := append_inj_of_length (by simp [hs]) heq
        rw [(append_inj_of_length hs hfirst).1, hinjective hothers]

namespace Operator

variable {op : Operator} {texts texts' : List String}

theorem length_write (op : Operator) (h : texts.map String.length = texts'.map String.length) :
    (op.write texts).length = (op.write texts').length := by
  simp only [write, String.length_append, (intercalate_of_lengths op.separator h).1]

/-- An operation is written in one way only, for operands whose texts have these lengths. -/
theorem write_inj (h : texts.map String.length = texts'.map String.length) :
    op.write texts = op.write texts' ↔ texts = texts' := by
  refine ⟨fun heq => (intercalate_of_lengths op.separator h).2 ?_, congrArg op.write⟩
  simpa only [write, String.append_right_inj, String.append_left_inj] using heq

theorem write_call_pair (callee arg : String) :
    call.write [callee, arg] = "fn(" ++ callee ++ ", " ++ arg ++ ")" := by
  simp [write, opening, separator, operatorClass, tag, String.append_assoc]

end Operator

namespace Expr

variable {e : Expr} {op : Operator}

theorem termTexts_eq (terms : Bag) :
    termTexts terms = terms.map fun entry => countedText entry.2 entry.1.toText := by
  induction terms with
  | nil => rfl
  | cons entry rest ih => rw [termTexts, List.map_cons, ih]

theorem argTexts_eq (args : List Expr) : argTexts args = args.map toText := by
  induction args with
  | nil => rfl
  | cons e rest ih => rw [argTexts, List.map_cons, ih]

theorem termClassTexts_eq (terms : Bag) :
    termClassTexts terms = terms.map fun entry => countedText entry.2 entry.1.classText := by
  induction terms with
  | nil => rfl
  | cons entry rest ih => rw [termClassTexts, List.map_cons, ih]

theorem argClassTexts_eq (args : List Expr) : argClassTexts args = args.map classText := by
  induction args with
  | nil => rfl
  | cons e rest ih => rw [argClassTexts, List.map_cons, ih]

theorem classText_of_op? (h : e.op? = some op) :
    e.classText = op.write (e.operandTexts classText) := by
  cases e with
  | constant | symbol => cases h
  | nary op terms =>
    cases h
    rw [classText, termClassTexts_eq]
    rfl
  | unary | binary | conditional =>
    cases h
    rfl
  | call callee args =>
    cases h
    rw [classText, argClassTexts_eq]
    rfl

theorem orderedText_eq_write {op : BinaryOp} (lhs rhs : String) :
    orderedText op.tag op.isWord [lhs, rhs] = (Operator.binary op).write [lhs, rhs] := by
  have hword : op.isWord = (Operator.binary op).isAlphabetic := by cases op <;> rfl
  cases h : op.isWord <;>
    simp [orderedText, Operator.write, Operator.opening, Operator.separator, Operator.operatorClass,
      Operator.tag, ← hword, h, String.append_assoc]

theorem toText_call_of_one (callee arg : Expr) :
    (call callee [arg]).toText = "(" ++ callee.toText ++ " fn " ++ arg.toText ++ ")" := by
  simp [toText, argTexts, orderedText, String.append_assoc]

theorem classText_call_of_one (callee arg : Expr) :
    (call callee [arg]).classText = "fn(" ++ callee.classText ++ ", " ++ arg.classText ++ ")" :=
  Operator.write_call_pair callee.classText arg.classText

/-- Every other operation is written by the class of its operator. -/
theorem toText_of_op? (h : e.op? = some op) (hne : ¬ e.IsCallOfOne) :
    e.toText = op.write (e.operandTexts toText) := by
  cases e with
  | constant | symbol => cases h
  | nary op terms =>
    cases h
    rw [toText, termTexts_eq]
    rfl
  | unary | conditional =>
    cases h
    rfl
  | binary op lhs rhs =>
    cases h
    exact orderedText_eq_write lhs.toText rhs.toText
  | call callee args =>
    cases h
    rw [toText, argTexts_eq]
    match args with
    | [] | _ :: _ :: _ => rfl
    | [arg] => exact (hne (isCallOfOne_iff.mpr ⟨callee, arg, rfl⟩)).elim

theorem classText_of_isAtomic (h : e.op? = none) : e.classText = e.toText := by
  cases e with
  | constant | symbol => rfl
  | nary | unary | binary | conditional | call => cases h

/-- A call of one argument is as long in either form, so that operands stand where they would. -/
theorem length_classText (e : Expr) : e.classText.length = e.toText.length := by
  induction e using Expr.induction with
  | _ e ih =>
    cases hop : e.op? with
    | none => rw [classText_of_isAtomic hop]
    | some op =>
      by_cases hone : e.IsCallOfOne
      · obtain ⟨callee, arg, rfl⟩ := isCallOfOne_iff.mp hone
        have hcallee := ih callee (by simp [children, ordered])
        have harg := ih arg (by simp [children, ordered])
        have hmarks : "fn(".length + ", ".length = "(".length + " fn ".length := rfl
        rw [toText_call_of_one, classText_call_of_one]
        simp only [String.length_append, hcallee, harg]
        omega
      · rw [classText_of_op? hop, toText_of_op? hop hone]
        exact op.length_write (lengths_operandTexts ih)

theorem toText_ne_classText (h : e.IsCallOfOne) : e.toText ≠ e.classText := by
  obtain ⟨callee, arg, rfl⟩ := isCallOfOne_iff.mp h
  intro heq
  have hfirst := congrArg (fun text => text.toList.head?) heq
  simp [toText_call_of_one, classText_call_of_one] at hfirst

/-- The text is the one by class exactly where no call of one argument occurs in it. -/
theorem toText_eq_classText_iff :
    e.toText = e.classText ↔ e.Everywhere fun c => ¬ c.IsCallOfOne := by
  induction e using Expr.induction with
  | _ e ih =>
    rw [everywhere_iff, ← forall₂_congr ih]
    cases hop : e.op? with
    | none =>
      have hchildren : e.children = [] := children_of_isAtomic (by rw [isAtomic_eq, hop]; rfl)
      simp [classText_of_isAtomic hop, hchildren, IsCallOfOne, hop]
    | some op =>
      by_cases hone : e.IsCallOfOne
      · simp [hone, toText_ne_classText hone]
      · rw [classText_of_op? hop, toText_of_op? hop hone,
          Operator.write_inj (lengths_operandTexts fun c _ => (length_classText c).symm),
          operandTexts_eq_iff]
        simp [hone]

/-- Atoms are written as they are, and operations by the class of their operator with the operands
of a semigroup operator in order, but for a call of one argument: the text is the one by class
exactly where there is none. -/
theorem toText_by_class (hw : e.WellFormed) :
    (∀ value, e = constant value → e.toText = value.toText) ∧
    (∀ name, e = symbol name → e.toText = name) ∧
    (∀ op terms, e = nary op terms → (Bag.keys terms).Pairwise fun a b => compare a b = .lt) ∧
    (∀ op, e.op? = some op → ¬ e.IsCallOfOne → e.toText = op.write (e.operandTexts toText)) ∧
    (∀ callee arg, e = call callee [arg] →
      e.toText = "(" ++ callee.toText ++ " fn " ++ arg.toText ++ ")") ∧
    (e.toText = e.classText ↔ e.Everywhere fun c => ¬ c.IsCallOfOne) := by
  refine ⟨?_, ?_, ?_, fun _ => toText_of_op?, ?_, toText_eq_classText_iff⟩
  · rintro value rfl
    rfl
  · rintro name rfl
    rfl
  · rintro op terms rfl
    exact List.pairwise_map.mpr hw.canonical.1
  · rintro callee arg rfl
    exact toText_call_of_one callee arg

/-- The sum in `(x+[2]y)` is written by its class, and the call of `f` with it is not. -/
theorem toText_by_class_of_sum_in_call :
    let sum := nary .add [(symbol "x", 1), (symbol "y", 2)]
    let e := call (symbol "f") [sum]
    sum.WellFormed ∧ e.WellFormed ∧ sum.toText = (Operator.semigroup .add).write ["x", "[2]y"] ∧
      e.toText = "(" ++ (symbol "f").toText ++ " fn " ++ sum.toText ++ ")" ∧
      e.toText ≠ e.classText := by
  intro sum e
  have hsum : sum.WellFormed := by decide
  have he : e.WellFormed := by decide
  have htexts : sum.operandTexts toText = ["x", "[2]y"] := rfl
  obtain ⟨_, _, _, hwritten, _⟩ := toText_by_class hsum
  have hsumText := hwritten _ rfl (by decide)
  rw [htexts] at hsumText
  obtain ⟨_, _, _, _, hcall, hclass⟩ := toText_by_class he
  exact ⟨hsum, he, hsumText, hcall _ _ rfl,
    fun heq => absurd (hclass.mp heq) (by decide)⟩

/-- A call of `f` with `x` is not written as its class has it. -/
theorem toText_of_call_of_one :
    let e := call (symbol "f") [symbol "x"]
    e.WellFormed ∧ e.op? = some .call ∧ Operator.call.operatorClass = .variadic ∧
      e.toText = "(f fn x)" ∧ Operator.call.write (e.operandTexts toText) = "fn(f, x)" ∧
      e.toText ≠ Operator.call.write (e.operandTexts toText) := by
  intro e
  have htext : e.toText = "(f fn x)" := toText_call_of_one (symbol "f") (symbol "x")
  have hclass : Operator.call.write (e.operandTexts toText) = "fn(f, x)" :=
    Operator.write_call_pair "f" "x"
  refine ⟨by decide, rfl, rfl, htext, hclass, ?_⟩
  rw [htext, hclass]
  decide

end Expr
end Symbolic

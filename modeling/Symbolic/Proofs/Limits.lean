import Symbolic.Proofs.Halting

/-! The limits only cut runs off: under other limits a run goes the same way, as far as they let
it. -/
namespace Symbolic.Machine

/-- The rules read nothing of a configuration but the word width. -/
def IgnoresLimits (rules : List Tree.Rule) : Prop :=
  ∀ rule ∈ rules, ∀ (parent : Option Operator) (config config' : Config) (t : Tree),
    config.wordBits = config'.wordBits →
      rule.applies ⟨parent, config⟩ t = rule.applies ⟨parent, config'⟩ t ∧
      rule.rewrite ⟨parent, config⟩ t = rule.rewrite ⟨parent, config'⟩ t

/-- With any buffer a part records the same rewrites and ends in the same value, unless the rewrite
beyond the limit cuts it off. -/
inductive Replays (machine : Machine) {α : Type} (steps : List Tree.Step) (a : α) (s t : State) :
    Option (Except Exit α × State) → Prop
  | whole (h : t.statistics.steps ≤ machine.config.maxSteps) :
      Replays machine steps a s t
        (some (.ok a, { t with recent := steps.foldl (push machine.config.traceLength) s.recent }))
  | cut {u : State} (h : machine.config.maxSteps < t.statistics.steps) :
      Replays machine steps a s t
        (some (.error (.failed (.nonTerminating machine.config.maxSteps
          ((steps.take (machine.config.maxSteps + 1 - s.statistics.steps)).foldl
            (push machine.config.traceLength) s.recent))), u))

/-- Between two states rewrites have been recorded. -/
structure Records (machine : Machine) (steps : List Tree.Step) (s t : State) : Prop where
  steps_eq : t.statistics.steps = s.statistics.steps + steps.length
  recent_eq : t.recent = steps.foldl (push machine.config.traceLength) s.recent
  fired_imp : t.fired = true → s.fired = true ∨ 0 < steps.length

/-- If a part leads from a state to another one, another machine replays it. -/
def ReplaysFrom (machine machine' : Machine) {α : Type} (s : State) (x x' : Run α) : Prop :=
  ∀ a t, x s = some (.ok a, t) → ∃ steps : List Tree.Step, machine.Records steps s t ∧
    ∀ recent, s.statistics.steps ≤ machine'.config.maxSteps →
      Replays machine' steps a { s with recent } t (x' { s with recent })

def ReplaysAs (machine machine' : Machine) (α : Type) (x x' : Run α) : Prop :=
  ∀ s, ReplaysFrom machine machine' s x x'

variable {α β : Type} {machine machine' : Machine} {s t u : State} {a : α} {b : β}
  {x x' : Run α} {f f' : α → Run β} {step : Tree.Step} {steps steps' : List Tree.Step}
  {rounds rounds' levels levels' capacity : Nat}

/-- No more can be taken than there are. -/
theorem rtake_min_length (n : Nat) (all : List Tree.Step) :
    all.rtake (min n all.length) = all.rtake n := by
  rw [List.rtake, List.rtake]
  congr 1
  omega

namespace Records

theorem refl (s : State) : machine.Records [] s s := ⟨rfl, rfl, Or.inl⟩

theorem trans (h : machine.Records steps s t) (h' : machine.Records steps' t u) :
    machine.Records (steps ++ steps') s u := by
  refine ⟨?_, ?_, fun hu => ?_⟩
  · rw [h'.steps_eq, h.steps_eq, List.length_append, Nat.add_assoc]
  · rw [h'.recent_eq, h.recent_eq, List.foldl_append]
  · rw [List.length_append]
    rcases h'.fired_imp hu with ht | hlt
    · rcases h.fired_imp ht with hs | hlt
      · exact Or.inl hs
      · exact Or.inr (by omega)
    · exact Or.inr (by omega)

end Records

namespace ReplaysAs

theorem pure (a : α) : ReplaysAs machine machine' α (pure a) (pure a) := by
  rintro s _ _ ⟨⟩
  exact ⟨[], .refl s, fun recent hs => .whole hs⟩

theorem lift (x : Attempt α) : ReplaysAs machine machine' α (liftM x) (liftM x) := by
  rintro s a t h
  obtain ⟨rfl, rfl⟩ := Prod.mk.inj (Option.some.inj h)
  exact pure a s a s rfl

/-- A part that fails has nothing to be replayed. -/
theorem of_throw (exit : Exit) (s : State) (x' : Run α) :
    ReplaysFrom machine machine' s (throw exit) x' := by
  intro a t h
  cases h

theorem of_bind (h : ReplaysFrom machine machine' s x x')
    (hf : ∀ a t, x s = some (.ok a, t) → ReplaysFrom machine machine' t (f a) (f' a)) :
    ReplaysFrom machine machine' s (x >>= f) (x' >>= f') := by
  intro b u hrun
  obtain ⟨a, t, hx, hfa⟩ := exists_of_bind_eq_ok hrun
  obtain ⟨steps, hst, hfirst⟩ := h a t hx
  obtain ⟨steps', htu, hrest⟩ := hf a t hx b u hfa
  have hsteps := hst.steps_eq
  have hsteps' := htu.steps_eq
  refine ⟨steps ++ steps', hst.trans htu, fun recent hs => ?_⟩
  have hfirst := hfirst recent hs
  generalize hx' : x' { s with recent } = part at hfirst
  cases hfirst with
  | cut hlt =>
    have htake : (steps ++ steps').take (machine'.config.maxSteps + 1 - s.statistics.steps) =
        steps.take (machine'.config.maxSteps + 1 - s.statistics.steps) :=
      List.take_append_of_le_length (by omega)
    rw [bind_of_error hx']
    exact htake ▸ .cut (by omega)
  | whole hle =>
    have hrest := hrest (steps.foldl (push machine'.config.traceLength) recent) hle
    rw [bind_of_ok hx']
    generalize f' a _ = part at hrest ⊢
    cases hrest with
    | whole hle' =>
      rw [← List.foldl_append]
      exact .whole hle'
    | cut hlt =>
      have htake : (steps ++ steps').take (machine'.config.maxSteps + 1 - s.statistics.steps) =
          steps ++ steps'.take (machine'.config.maxSteps + 1 - t.statistics.steps) := by
        rw [← List.take_length_add_append]
        congr 1
        omega
      dsimp only
      rw [← List.foldl_append, ← htake]
      exact .cut hlt

/-- A part that reads of the state what does not depend on the buffer. -/
theorem of_get {g g' : State → Run α} (h : ReplaysFrom machine machine' s (g s) x')
    (hg : ∀ recent, g' { s with recent } = x') :
    ReplaysFrom machine machine' s (get >>= g) (get >>= g') := by
  intro a t hx
  obtain ⟨steps, hrecords, hreplays⟩ := h a t hx
  refine ⟨steps, hrecords, fun recent hs => ?_⟩
  rw [get_bind_apply, hg]
  exact hreplays recent hs

theorem inherited (machine machine' : Machine) : Inherited (ReplaysAs machine machine') where
  pure := pure
  counted x := lift (counted x)
  bind h hf s := of_bind (h s) fun a t _ => hf a t

/-- A part that neither reads nor changes the buffer and counts no rewrite. -/
theorem modified {g : State → State} (hg : ∀ s recent, g { s with recent } = { g s with recent })
    (hsteps : ∀ s, (g s).statistics.steps = s.statistics.steps)
    (hfired : ∀ s, (g s).fired = true → s.fired = true) :
    ReplaysAs machine machine' PUnit (modify g) (modify g) := by
  intro s _ t h
  obtain ⟨_, rfl⟩ := Prod.mk.inj (Option.some.inj h)
  have hkept : (g s).recent = s.recent := by
    have hsame := congrArg (fun s : State => s.recent) (hg s s.recent)
    exact hsame
  refine ⟨[], ⟨hsteps s, hkept, fun h => Or.inl (hfired s h)⟩, fun recent hs => ?_⟩
  have hmodify : (modify g : Run PUnit) { s with recent } = some (.ok ⟨⟩, { g s with recent }) := by
    rw [← hg]
    rfl
  rw [hmodify]
  exact .whole (by rw [hsteps]; exact hs)

theorem record (step : Tree.Step) :
    ReplaysAs machine machine' Unit (machine.record step) (machine'.record step) := by
  intro s a t h
  obtain ⟨statistics, hcount, hle, rfl⟩ := exists_of_record_eq_ok h
  have hsteps := (count?_eq_some hcount).1
  refine ⟨[step], ⟨hsteps, rfl, fun _ => Or.inr Nat.one_pos⟩, fun recent hs => ?_⟩
  have hafter : ({ s with recent }).toProgress.after? machine'.config.traceLength step =
      some ⟨push machine'.config.traceLength recent step, statistics, true⟩ := by
    rw [Progress.after?, hcount]
    rfl
  rw [record_eq hafter]
  split
  · next hlt =>
    have hone : machine'.config.maxSteps + 1 - s.statistics.steps = 1 := by
      dsimp only at hlt
      omega
    have hcut : ([step].take (machine'.config.maxSteps + 1 - s.statistics.steps)).foldl
        (push machine'.config.traceLength) recent =
          push machine'.config.traceLength recent step := by
      rw [hone]
      rfl
    rw [← hcut]
    exact .cut hlt
  · next hle' => exact .whole (Nat.le_of_not_lt hle')

end ReplaysAs

/-! ## A whole run -/

/-- Machines with the same rewrites, of which the second one may enter no fewer levels. -/
structure Alike (machine machine' : Machine) : Prop where
  rewrites : ∀ parent t, machine'.rewrite? parent t = machine.rewrite? parent t
  levels : machine.config.maxDepth ≤ machine'.config.maxDepth

namespace ReplaysAs

/-- Beyond the limit nothing is replayed, and any number of rounds will do. -/
theorem exists_rounds {limit n left : Nat} (h : limit < n + left) :
    ∃ k, limit < n + (k + 1) ∧ (n ≤ limit → left = k + 1) := by
  by_cases hn : n ≤ limit
  · exact ⟨left - 1, by omega, fun _ => by omega⟩
  · exact ⟨0, by omega, fun h => absurd h hn⟩

theorem settle (hr : ∀ parent t, machine'.rewrite? parent t = machine.rewrite? parent t)
    {normalize normalize' : Option Operator → Tree → Run Tree}
    (hn : ∀ parent t, ReplaysAs machine machine' Tree (normalize parent t) (normalize' parent t))
    (parent : Option Operator) {left left' : Nat} {t : Tree} {s : State}
    (hleft : machine'.config.maxSteps < s.statistics.steps + left') :
    ReplaysFrom machine machine' s (machine.settle normalize parent left t)
      (machine'.settle normalize' parent left' t) := by
  induction left generalizing left' t s with
  | zero => exact nofun
  | succ left ih =>
    obtain ⟨k, hk, hsame⟩ := exists_rounds hleft
    have hround : ReplaysFrom machine machine' s (machine.settle normalize parent (left + 1) t)
        (machine'.settle normalize' parent (k + 1) t) := by
      rw [Machine.settle, Machine.settle]
      have hchildren := (inherited machine machine').normalizeChildren hn t s
      refine of_bind hchildren fun next between hx => ?_
      obtain ⟨_, hrecords, _⟩ := hchildren next between hx
      have hback := hrecords.steps_eq
      rw [hr]
      refine of_bind (lift _ between) fun found last hfound => ?_
      obtain ⟨_, rfl⟩ := Prod.mk.inj (Option.some.inj hfound)
      cases found with
      | none => exact pure next between
      | some step =>
        refine of_bind (record step between) fun _ recorded hrecord => ?_
        have hone := steps_of_record hrecord
        exact ih (by omega)
    intro a u h
    obtain ⟨steps, hrecords, hreplays⟩ := hround a u h
    exact ⟨steps, hrecords, fun recent hs => hsame hs ▸ hreplays recent hs⟩

theorem normalize (ha : Alike machine machine') (hr : machine'.config.maxSteps < rounds')
    (hl : levels ≤ levels') (parent : Option Operator) (t : Tree) :
    ReplaysAs machine machine' Tree (machine.normalize rounds levels parent t)
      (machine'.normalize rounds' levels' parent t) := by
  induction levels generalizing levels' parent t with
  | zero =>
    rw [Machine.normalize]
    split
    · next hatom =>
      have hnormal : machine'.normalize rounds' levels' parent t = Pure.pure t := by
        cases levels' <;> rw [Machine.normalize, if_pos hatom]
      rw [hnormal]
      exact pure t
    · exact fun s => of_throw _ s _
  | succ levels ih =>
    obtain ⟨levels', rfl⟩ : ∃ k, levels' = k + 1 := ⟨levels' - 1, by omega⟩
    have hrest := ih (Nat.le_of_succ_le_succ hl)
    intro s
    rw [Machine.normalize, Machine.normalize]
    split
    · exact pure t s
    · cases hlookup : s.memo.lookup (parent, t) with
      | some normal =>
        refine of_get ?_ fun recent => by simp only [hlookup]; rfl
        simp only [hlookup]
        exact pure normal s
      | none =>
        refine of_get ?_ fun recent => by simp only [hlookup]; rfl
        simp only [hlookup]
        refine of_bind (settle ha.rewrites hrest parent (Nat.lt_add_left _ hr))
          fun normal last _ => ?_
        refine of_bind (modified ?_ ?_ ?_ last) fun _ last _ => pure normal last
        · exact fun _ _ => rfl
        · exact fun _ => rfl
        · exact fun _ => id

theorem beginPass : ReplaysAs machine machine' PUnit beginPass beginPass := by
  intro s
  have hcount : ReplaysFrom machine machine' s
      (do modify (·.inPass (← liftM (Attempt.orHalt .counter (wordSum? s.statistics.passes 1)))) :
        Run PUnit)
      (do modify (·.inPass (← liftM (Attempt.orHalt .counter (wordSum? s.statistics.passes 1)))) :
        Run PUnit) := by
    refine of_bind (lift _ s) fun passes last _ => ?_
    refine modified ?_ ?_ ?_ last
    · exact fun _ _ => rfl
    · exact fun _ => rfl
    · exact fun _ => nofun
  exact of_get hcount fun recent => rfl

/-- Every pass of a run is replayed. -/
theorem runPasses (ha : Alike machine machine') (hr : machine'.config.maxSteps < rounds')
    {left left' : Nat} {t : Tree} {s : State}
    (hleft : machine'.config.maxSteps < s.statistics.steps + left') :
    ReplaysFrom machine machine' s (machine.runPasses rounds left t)
      (machine'.runPasses rounds' left' t) := by
  induction left generalizing left' t s with
  | zero => exact nofun
  | succ left ih =>
    obtain ⟨k, hk, hsame⟩ := exists_rounds hleft
    have hpass : ReplaysFrom machine machine' s (machine.runPasses rounds (left + 1) t)
        (machine'.runPasses rounds' (k + 1) t) := by
      rw [Machine.runPasses, Machine.runPasses]
      refine of_bind (beginPass s) fun _ opened hbegin => ?_
      have hnormalize : ReplaysFrom machine machine' opened
          (machine.normalize rounds machine.config.maxDepth none t)
          (machine'.normalize rounds' machine'.config.maxDepth none t) :=
        normalize ha hr ha.levels none t opened
      refine of_bind hnormalize fun next after hx => ?_
      obtain ⟨_, hrecords, _⟩ := hnormalize next after hx
      obtain rfl := eq_of_beginPass_eq_ok hbegin
      cases hfired : after.fired with
      | false =>
        refine of_get ?_ fun recent => by simp only [hfired]; rfl
        simp only [hfired]
        refine of_bind (modified ?_ ?_ ?_ after) fun _ last _ => pure next last
        · exact fun _ _ => rfl
        · exact fun _ => rfl
        · exact fun _ => id
      | true =>
        refine of_get ?_ fun recent => by simp only [hfired]; rfl
        simp only [hfired]
        have hsteps : after.statistics.steps = s.statistics.steps + _ := hrecords.steps_eq
        rcases hrecords.fired_imp hfired with hnot | hmore
        · cases hnot
        · exact ih (by omega)
    intro a u h
    obtain ⟨steps, hrecords, hreplays⟩ := hpass a u h
    exact ⟨steps, hrecords, fun recent hs => hsame hs ▸ hreplays recent hs⟩

theorem run (ha : Alike machine machine') (hr : machine'.config.maxSteps < rounds') (t : Tree) :
    ReplaysFrom machine machine' {} (machine.run rounds t) (machine'.run rounds' t) := by
  have hlevels := ha.levels
  rw [Machine.run, Machine.run]
  split
  · exact of_throw _ _ _
  · rw [if_neg (by omega)]
    exact runPasses ha hr (Nat.lt_of_lt_of_eq hr (Nat.zero_add rounds').symm)

end ReplaysAs

theorem firstRewrite_congr {rules : List Tree.Rule} {parent : Option Operator}
    {config config' : Config} (hi : IgnoresLimits rules) (hw : config.wordBits = config'.wordBits)
    (t : Tree) :
    firstRewrite ⟨parent, config⟩ t rules = firstRewrite ⟨parent, config'⟩ t rules := by
  induction rules with
  | nil => rfl
  | cons rule rest ih =>
    obtain ⟨happlies, hrewrite⟩ := hi rule List.mem_cons_self parent config config' t hw
    have hrest := ih fun rule hm => hi rule (List.mem_cons_of_mem _ hm)
    rw [firstRewrite, firstRewrite, happlies, hrewrite, hrest]

/-- Under other limits rules that ignore them rewrite alike. -/
theorem alike_of_ignoresLimits {config' : Config} (hi : IgnoresLimits machine.rules)
    (hw : machine.config.wordBits = config'.wordBits)
    (hl : machine.config.maxDepth ≤ config'.maxDepth) :
    Alike machine { machine with config := config' } where
  rewrites parent t := by
    rw [rewrite?, rewrite?]
    split
    · rfl
    · refine (firstRewrite_congr (fun rule hm => hi rule ?_) hw t).symm
      exact List.mem_of_mem_filter hm
  levels := hl

theorem steps_le_of_run (hi : IgnoresLimits machine.rules) (hr : machine.config.maxSteps < rounds)
    {t normal : Tree} (h : machine.run rounds t {} = some (.ok normal, s)) :
    s.statistics.steps ≤ machine.config.maxSteps := by
  have ha : Alike machine machine := alike_of_ignoresLimits hi rfl (Nat.le_refl _)
  obtain ⟨steps, _, hreplays⟩ := ReplaysAs.run ha hr t normal s h
  have hsame : Replays machine steps normal {} s (machine.run rounds t {}) :=
    hreplays [] (Nat.zero_le _)
  rw [h] at hsame
  generalize hpart : some (Except.ok normal, s) = part at hsame
  cases hsame with
  | whole hle => exact hle
  | cut => cases hpart

/-- A buffer with room for every rewrite holds them all. -/
theorem run_roomy (hi : IgnoresLimits machine.rules) (hr : machine.config.maxSteps < rounds)
    {t normal : Tree} (h : machine.run rounds t {} = some (.ok normal, s)) :
    machine.roomy.run rounds t {} =
        some (.ok normal, { s with recent := machine.rewrites rounds t }) ∧
      (machine.rewrites rounds t).length = s.statistics.steps := by
  have ha : Alike machine machine.roomy := alike_of_ignoresLimits hi rfl (Nat.le_refl _)
  obtain ⟨steps, hrecords, hreplays⟩ := ReplaysAs.run ha hr t normal s h
  have hsteps : s.statistics.steps = 0 + steps.length := hrecords.steps_eq
  have hle := steps_le_of_run hi hr h
  have hall : steps.foldl (push (machine.config.maxSteps + 1)) [] = steps :=
    foldl_push_of_le (by omega)
  have hroomy : Replays machine.roomy steps normal {} s (machine.roomy.run rounds t {}) :=
    hreplays [] (Nat.zero_le _)
  have hrun : machine.roomy.run rounds t {} = some (.ok normal, { s with recent := steps }) := by
    generalize machine.roomy.run rounds t {} = part at hroomy
    cases hroomy with
    | whole _ => exact hall.symm ▸ rfl
    | cut hlt => exact absurd hle (Nat.not_le_of_lt hlt)
  have hrewrites : machine.rewrites rounds t = steps := by
    rw [rewrites, hrun]
  rw [hrewrites, hrun]
  exact ⟨rfl, by omega⟩

/-- Under other limits all the rewrites of a successful run are replayed, as far as these let it. -/
theorem replays_rewrites {config' : Config} (hi : IgnoresLimits machine.rules)
    (hr : machine.config.maxSteps < rounds) {t normal : Tree}
    (h : machine.run rounds t {} = some (.ok normal, s))
    (hw : config'.wordBits = machine.config.wordBits)
    (hl : machine.config.maxDepth ≤ config'.maxDepth) (hr' : config'.maxSteps < rounds') :
    Replays { machine with config := config' } (machine.rewrites rounds t) normal {}
      { s with recent := machine.rewrites rounds t }
      (Machine.run { machine with config := config' } rounds' t {}) := by
  obtain ⟨hroomy, hlength⟩ := run_roomy hi hr h
  have hwithin := steps_le_of_run hi hr h
  have ha : Alike machine.roomy { machine with config := config' } :=
    alike_of_ignoresLimits hi hw.symm hl
  obtain ⟨steps, hrecords, hreplays⟩ := ReplaysAs.run ha hr' t normal _ hroomy
  obtain rfl : machine.rewrites rounds t = steps := by
    have hsteps : s.statistics.steps = 0 + steps.length := hrecords.steps_eq
    have hall : steps.foldl (push (machine.config.maxSteps + 1)) [] = steps :=
      foldl_push_of_le (by omega)
    exact hrecords.recent_eq.trans hall
  exact hreplays [] (Nat.zero_le _)

/-- Of the first rewrites a buffer holds the last ones. -/
theorem foldl_push_take {all : List Tree.Step} {n : Nat} (h : n < all.length) :
    (all.take (n + 1)).foldl (push capacity) [] =
      (all.take (n + 1)).rtake (min capacity (n + 1)) := by
  have htaken : (all.take (n + 1)).length = n + 1 := List.length_take_of_le h
  have hlast := foldl_push capacity [] (all.take (n + 1))
  rw [List.rtake_nil, List.nil_append, ← rtake_min_length, htaken] at hlast
  exact hlast

/-- A run that has succeeded succeeds in the same way under every limit on rewrites that it keeps
to, with a buffer of any size that can be asked for, and with any more levels. A limit that it does
not keep to cuts it off at the first rewrite beyond, and the buffer then holds the last of the
rewrites up to that one. No run begins with a buffer larger than any that can be asked for. -/
theorem simplify_of_limits (machine : Machine) (hi : IgnoresLimits machine.rules) {rounds : Nat}
    (hr : machine.config.maxSteps < rounds) {t normal : Tree} {statistics : Statistics}
    (h : machine.simplify rounds t = some (.ok (normal, statistics))) :
    let rewrites := machine.rewrites rounds t
    rewrites.length = statistics.steps ∧
    ∀ (config' : Config) (rounds' : Nat), config'.wordBits = machine.config.wordBits →
      machine.config.maxDepth ≤ config'.maxDepth → config'.maxSteps < rounds' →
      let machine' : Machine := { machine with config := config' }
      (config'.traceLength * stepBytes ≤ maxBytes →
        (statistics.steps ≤ config'.maxSteps →
          machine'.simplify rounds' t = some (.ok (normal, statistics))) ∧
        (config'.maxSteps < statistics.steps →
          machine'.simplify rounds' t = some (.error (.failed (.nonTerminating config'.maxSteps
            ((rewrites.take (config'.maxSteps + 1)).rtake
              (min config'.traceLength (config'.maxSteps + 1)))))))) ∧
      (maxBytes < config'.traceLength * stepBytes →
        machine'.simplify rounds' t = some (.error (.halted .capacity))) := by
  obtain ⟨s, hrun, rfl⟩ := exists_of_simplify_eq_ok h
  obtain ⟨_, hlength⟩ := run_roomy hi hr hrun
  refine ⟨hlength, fun config' rounds' hw hl hr' => ⟨fun hfits => ?_, fun hlarge => if_pos hlarge⟩⟩
  have hends := replays_rewrites hi hr hrun hw hl hr'
  generalize hpart : Machine.run { machine with config := config' } rounds' t {} = part at hends
  cases hends with
  | whole hle =>
    have hsimplify : Machine.simplify { machine with config := config' } rounds' t = _ :=
      simplify_of_run hfits hpart
    exact ⟨fun _ => hsimplify, fun hlt => absurd hle (Nat.not_le_of_lt hlt)⟩
  | cut hlt =>
    have hsimplify : Machine.simplify { machine with config := config' } rounds' t = _ :=
      simplify_of_run hfits hpart
    have hcut : config'.maxSteps < (machine.rewrites rounds t).length := hlength ▸ hlt
    refine ⟨fun hle => absurd hle (Nat.not_le_of_lt hlt), fun _ => ?_⟩
    rw [← foldl_push_take hcut]
    exact hsimplify

theorem ignoresLimits_all : IgnoresLimits Tree.Rules.all := by
  intro rule hm parent config config' t hw
  simp only [Tree.Rules.all, Tree.Rules.semigroupFamily, Tree.Rules.foldingFamily,
    Tree.Rules.comparisonFamily, Tree.Rules.factoringFamily, List.cons_append, List.nil_append,
    List.mem_cons, List.not_mem_nil, or_false] at hm
  rcases hm with rfl | rfl | rfl | rfl | rfl | rfl | rfl | rfl | rfl | rfl | rfl | rfl | rfl | rfl |
    rfl
  case inr.inr.inr.inr.inl =>
    refine ⟨rfl, ?_⟩
    simp only [Tree.Rules.foldBinary, hw]
  all_goals exact ⟨rfl, rfl⟩

/-- With a limit of two rewrites `(x + 1) + 2` takes them both. With a limit of one it is cut off by
the second, which a buffer of one place holds, and which one of no place does not. -/
theorem simplify_of_limits_of_nested_sum :
    let machine (maxSteps traceLength : Nat) : Machine :=
      ⟨Tree.Rules.all, { maxSteps, traceLength }⟩
    let t := Tree.ofExpr (.nary .add [(.int 2, 1), (.nary .add [(.int 1, 1), (.symbol "x", 1)], 1)])
    IgnoresLimits Tree.Rules.all ∧
      ∃ normal statistics, (machine 2 8).simplify 3 t = some (.ok (normal, statistics)) ∧
        statistics.steps = 2 ∧
        (machine 2 0).simplify 3 t = some (.ok (normal, statistics)) ∧
        (machine 1 1).simplify 2 t =
          some (.error (.failed (.nonTerminating 1 (((machine 2 8).rewrites 3 t).drop 1)))) ∧
        (machine 1 0).simplify 2 t = some (.error (.failed (.nonTerminating 1 []))) := by
  intro machine t
  have hrun : (machine 2 8).simplify 3 t =
      some (.ok (.ofExpr (.nary .add [(.int 3, 1), (.symbol "x", 1)]),
        ⟨2, 2, true, [("flatten", 1), ("fold-nary", 1)]⟩)) := by decide +kernel
  obtain ⟨hlength, hlimits⟩ :=
    simplify_of_limits (machine 2 8) ignoresLimits_all (Nat.lt_succ_self 2) hrun
  have hlength : ((machine 2 8).rewrites 3 t).length = 2 := hlength
  obtain ⟨hwhole, _⟩ := hlimits (machine 2 0).config 3 rfl (Nat.le_refl _) (Nat.lt_succ_self 2)
  obtain ⟨hlast, _⟩ := hlimits (machine 1 1).config 2 rfl (Nat.le_refl _) (Nat.lt_succ_self 1)
  obtain ⟨hnone, _⟩ := hlimits (machine 1 0).config 2 rfl (Nat.le_refl _) (Nat.lt_succ_self 1)
  have hlast := (hlast (by decide)).2 (by decide)
  have hnone := (hnone (by decide)).2 (by decide)
  refine ⟨ignoresLimits_all, _, _, hrun, rfl, (hwhole (by decide)).1 (by decide), ?_, ?_⟩
  · rw [hlast, List.take_of_length_le (Nat.le_of_eq hlength), List.rtake, hlength]
    rfl
  · have hempty : (((machine 2 8).rewrites 3 t).take 2).rtake (min 0 2) = [] := List.rtake_zero _
    exact hempty ▸ hnone

/-- Without rules `x + 1` is its own normal form with a buffer of eight places, and no run begins
with the largest buffer. -/
theorem simplify_of_limits_fails_of_largest_buffer :
    let machine (traceLength : Nat) : Machine := ⟨[], { traceLength }⟩
    let t := Tree.ofExpr (.nary .add [(.int 1, 1), (.symbol "x", 1)])
    IgnoresLimits (machine 8).rules ∧
      (machine 8).simplify 10001 t = some (.ok (t, ⟨0, 1, false, []⟩)) ∧
      ∀ rounds, (machine (wordCount - 1)).simplify rounds t =
        some (.error (.halted .capacity)) := by
  intro machine t
  exact ⟨nofun, by decide +kernel, fun rounds => if_pos (by decide)⟩

end Symbolic.Machine

import CircuitWitness.Proofs.Solver.Independence
import CircuitWitness.Proofs.Solver.Interleaving

/-!
# Independent instructions in any order

Instructions that are independent of each other find what they find from the state in which their
level began, whatever order they run in, and even after others of them have failed. So tasks that
interleave end as the instructions would one by one: well if all of these end well from the first
state, and else with the failure of the first that does not.

Results:
* `Merged.step`: one more instruction, in any order.
* `Merged.agreeing`: once all have run, it makes no difference in which order.
* `levelRuns_verdict`: what comes of a level is decided by its first state.
* `verdict_similar`: two runs of a level come to the same.
-/

namespace CircuitWitness.Solver

variable {F : PrimeField} {c : Circuit F} {hints : HintRegistry} {level : ℕ → ℕ}
  {s₀ t₀ s s' t : State F} {indices : List UInt32}

/-! ## Merged states -/

/-- A state in which some instructions have run, each of which left what it leaves from the first
    state. -/
structure Merged (c : Circuit F) (hints : HintRegistry) (s₀ : State F) (ran : Set UInt32)
    (s : State F) : Prop where
  fills : Fills { i | ∃ p ∈ ran, i ∈ c.fillable p.toNat } { k | ∃ p ∈ ran, k ∈ c.ownRow p.toNat }
    s₀ s
  agree : ∀ p ∈ ran, ∀ s₁, (solveInstruction c hints p).run s₀ = .ok () s₁ →
    Agree (c.lookedAt p.toNat) (c.ownRow p.toNat) s₁ s

theorem Merged.begin {s : State F} (fills : Fills ∅ ∅ s₀ s) : Merged c hints s₀ ∅ s :=
  ⟨fills.mono (Set.empty_subset _) (Set.empty_subset _), fun p hp => absurd hp (Set.notMem_empty p)⟩

variable {ran : Set UInt32} {q : UInt32}

/-- An instruction that has not run yet sees the first state. -/
theorem Merged.sees (ind : Independent c s₀ indices) (h : Merged c hints s₀ ran s)
    (sub : ∀ p ∈ ran, p ∈ indices) (hq : q ∈ indices) (fresh : q ∉ ran) :
    Agree (c.lookedAt q.toNat) (c.ownRow q.toNat) s₀ s := by
  refine ⟨h.fills.values.1.symm, h.fills.rows.1.symm, fun i hi => ?_, fun k hk => ?_⟩
  · obtain same | ⟨⟨p, hp, fill⟩, empty, -⟩ := h.fills.values.2 i
    · exact same.symm
    · have other : q ≠ p := by
        rintro rfl
        exact fresh hp
      exact absurd empty (ind.wires q hq p (sub p hp) other i hi fill)
  · obtain same | ⟨⟨p, hp, own⟩, -, -⟩ := h.fills.rows.2 k
    · exact same.symm
    · have other : q ≠ p := by
        rintro rfl
        exact fresh hp
      exact absurd own (ind.rows q hq p (sub p hp) other k hk)

/-- An instruction that runs comes to what it comes to from the first state, and leaves the others
    as they are. -/
theorem Merged.step (hp : F.IsPrime) (leveled : c.Leveled level) (ind : Independent c s₀ indices)
    (h : Merged c hints s₀ ran s) (sub : ∀ p ∈ ran, p ∈ indices) (hq : q ∈ indices)
    (fresh : q ∉ ran) :
    Similar (c.lookedAt q.toNat) (c.ownRow q.toNat) ((solveInstruction c hints q).run s₀)
        ((solveInstruction c hints q).run s) ∧
      Merged c hints s₀ (insert q ran) (stateAfter ((solveInstruction c hints q).run s)) := by
  have similar := solveInstruction_similar hp leveled hints (ind.bound q hq) ind.size
    (h.sees ind sub hq fresh)
  have writes := Writes.solveInstruction c hints q s
  refine ⟨similar, ?_, fun p mem s₁ run => ?_⟩
  · refine (h.fills.mono ?_ ?_).trans (writes.mono ?_ ?_)
    · rintro i ⟨p, mem, fill⟩
      exact ⟨p, Set.mem_insert_of_mem q mem, fill⟩
    · rintro k ⟨p, mem, own⟩
      exact ⟨p, Set.mem_insert_of_mem q mem, own⟩
    · intro i fill
      exact ⟨q, Set.mem_insert q ran, fill⟩
    · intro k own
      exact ⟨q, Set.mem_insert q ran, own⟩
  · obtain rfl | before := Set.mem_insert_iff.1 mem
    · rw [run] at similar
      obtain ⟨s₂, last, agree⟩ := similar.of_ok
      rw [last]
      exact agree
    · have other : p ≠ q := by
        rintro rfl
        exact fresh before
      refine (h.agree p before s₁ run).trans ⟨writes.values.1.symm, writes.rows.1.symm,
        fun i hi => ?_, fun k hk => ?_⟩
      · obtain same | ⟨fill, empty, -⟩ := writes.values.2 i
        · exact same.symm
        · -- What the two share was solved in the first state, so it is solved now.
          have solved := ind.wires p (sub p before) q hq other i hi fill
          obtain same | ⟨-, -, x, filled⟩ := h.fills.values.2 i
          · rw [same] at empty
            exact absurd empty solved
          · rw [filled] at empty
            simp at empty
      · obtain same | ⟨own, -, -⟩ := writes.rows.2 k
        · exact same.symm
        · exact absurd own (ind.rows p (sub p before) q hq other k hk)

/-! ## Verdicts -/

/-- An instruction ends well from a state. -/
def EndsWell (c : Circuit F) (hints : HintRegistry) (s : State F) (p : UInt32) : Prop :=
  ∃ s', (solveInstruction c hints p).run s = .ok () s'

/-- An instruction fails from a state, with an error of the same gist. -/
def FailsWith (c : Circuit F) (hints : HintRegistry) (s : State F) (p : UInt32) (e : Error F) :
    Prop :=
  ∃ e' s', (solveInstruction c hints p).run s = .error e' s' ∧ e'.gist = e.gist

/-- What comes of independent instructions, judged from their first state. -/
inductive Verdict (c : Circuit F) (hints : HintRegistry) (s₀ : State F) (indices : List UInt32) :
    EStateM.Result (Error F) (State F) Unit → Prop where
  | ok {s : State F} (all : ∀ p ∈ indices, EndsWell c hints s₀ p)
    (merged : Merged c hints s₀ { p | p ∈ indices } s) : Verdict c hints s₀ indices (.ok () s)
  | error {before after : List UInt32} {p : UInt32} {e : Error F} {s : State F}
    (split : indices = before ++ p :: after) (well : ∀ q ∈ before, EndsWell c hints s₀ q)
    (fails : FailsWith c hints s₀ p e) : Verdict c hints s₀ indices (.error e s)

theorem not_failsWith {p : UInt32} {e : Error F} (h : EndsWell c hints s p) :
    ¬ FailsWith c hints s p e := by
  obtain ⟨s', run⟩ := h
  rintro ⟨e', s'', run', -⟩
  rw [run] at run'
  cases run'

theorem EndsWell.of_agree (hp : F.IsPrime) (leveled : c.Leveled level)
    (size : s.values.length = c.wireCount) (agree : Agree .univ .univ s t) {p : UInt32}
    (bound : p.toNat < c.instructions.length) (h : EndsWell c hints s p) :
    EndsWell c hints t p := by
  obtain ⟨s', run⟩ := h
  have similar := solveInstruction_similar hp leveled hints bound size
    (agree.mono (Set.subset_univ _) (Set.subset_univ _))
  rw [run] at similar
  obtain ⟨t', run', -⟩ := similar.of_ok
  exact ⟨t', run'⟩

theorem FailsWith.of_agree (hp : F.IsPrime) (leveled : c.Leveled level)
    (size : s.values.length = c.wireCount) (agree : Agree .univ .univ s t) {p : UInt32}
    (bound : p.toNat < c.instructions.length) {e : Error F} (h : FailsWith c hints s p e) :
    FailsWith c hints t p e := by
  obtain ⟨e', s', run, gist⟩ := h
  have similar := solveInstruction_similar hp leveled hints bound size
    (agree.mono (Set.subset_univ _) (Set.subset_univ _))
  rw [run] at similar
  obtain ⟨e'', t', run', gist'⟩ := similar.of_error
  exact ⟨e'', t', run', gist'.symm.trans gist⟩

/-- The first entry of a list that is not well is where it is. -/
theorem first_unique {α : Type} {Well : α → Prop} {before before' after after' : List α} {p p' : α}
    (same : before ++ p :: after = before' ++ p' :: after') (well : ∀ q ∈ before, Well q)
    (well' : ∀ q ∈ before', Well q) (hp : ¬ Well p) (hp' : ¬ Well p') : p = p' := by
  induction before generalizing before' with
  | nil =>
    cases before' with
    | nil => exact (List.cons.inj same).1
    | cons q before' =>
      obtain ⟨rfl, -⟩ := List.cons.inj same
      exact absurd (well' p List.mem_cons_self) hp
  | cons q before ih =>
    cases before' with
    | nil =>
      obtain ⟨rfl, -⟩ := List.cons.inj same
      exact absurd (well q List.mem_cons_self) hp'
    | cons q' before' =>
      obtain ⟨-, rest⟩ := List.cons.inj same
      exact ih rest (fun r hr => well r (List.mem_cons_of_mem q hr))
        fun r hr => well' r (List.mem_cons_of_mem q' hr)

/-- What instructions have left that all ran, and ended well, from states that agree. -/
theorem Merged.agreeing (hp : F.IsPrime) (leveled : c.Leveled level)
    (ind : Independent c s₀ indices) (agree : Agree .univ .univ s₀ t₀)
    (merged : Merged c hints s₀ { p | p ∈ indices } s)
    (merged' : Merged c hints t₀ { p | p ∈ indices } t)
    (all : ∀ p ∈ indices, EndsWell c hints s₀ p) (all' : ∀ p ∈ indices, EndsWell c hints t₀ p) :
    Agree .univ .univ s t := by
  have alike (p : UInt32) (mem : p ∈ indices) :
      Agree (c.lookedAt p.toNat) (c.ownRow p.toNat) s t := by
    obtain ⟨s₁, run⟩ := all p mem
    obtain ⟨t₁, run'⟩ := all' p mem
    have similar := solveInstruction_similar hp leveled hints (ind.bound p mem) ind.size
      (agree.mono (Set.subset_univ _) (Set.subset_univ _))
    rw [run, run'] at similar
    cases similar with
    | ok agree₁ =>
      exact ((merged.agree p mem s₁ run).symm.trans agree₁).trans (merged'.agree p mem t₁ run')
  -- What no instruction fills is as it was in the first states.
  refine ⟨?_, ?_, fun i _ => ?_, fun k _ => ?_⟩
  · rw [merged.fills.values.1, merged'.fills.values.1, agree.wireCount]
  · rw [merged.fills.rows.1, merged'.fills.rows.1, agree.rowCount]
  · by_cases filled : ∃ p ∈ indices, i ∈ c.fillable p.toNat
    · obtain ⟨p, mem, fill⟩ := filled
      exact (alike p mem).values i (Circuit.fillable_subset _ fill)
    · rw [merged.fills.values.outside filled, merged'.fills.values.outside filled,
        agree.values i (Set.mem_univ i)]
  · by_cases filled : ∃ p ∈ indices, k ∈ c.ownRow p.toNat
    · obtain ⟨p, mem, own⟩ := filled
      exact (alike p mem).rows k own
    · rw [merged.fills.rows.outside filled, merged'.fills.rows.outside filled,
        agree.rows k (Set.mem_univ k)]

/-- Two runs of independent instructions from states that agree come to the same. -/
theorem verdict_similar (hp : F.IsPrime) (leveled : c.Leveled level)
    (ind : Independent c s₀ indices) (agree : Agree .univ .univ s₀ t₀)
    {r r' : EStateM.Result (Error F) (State F) Unit} (h : Verdict c hints s₀ indices r)
    (h' : Verdict c hints t₀ indices r') : Similar .univ .univ r r' := by
  have bound := ind.bound
  have size' : t₀.values.length = c.wireCount := by rw [← agree.wireCount, ind.size]
  cases h with
  | @ok s all merged =>
    cases h' with
    | @ok t all' merged' => exact .ok (merged.agreeing hp leveled ind agree merged' all all')
    | @error before after p e t split well fails =>
      have mem : p ∈ indices := by rw [split]; simp
      have again := fails.of_agree hp leveled size' agree.symm (bound p mem)
      exact absurd again (not_failsWith (all p mem))
  | @error before after p e s split well fails =>
    have mem : p ∈ indices := by rw [split]; simp
    have again := fails.of_agree hp leveled ind.size agree (bound p mem)
    cases h' with
    | @ok t all' merged' => exact absurd again (not_failsWith (all' p mem))
    | @error before' after' p' e' t split' well' fails' =>
      have there : ∀ q ∈ before, EndsWell c hints t₀ q := by
        intro q hq
        refine (well q hq).of_agree hp leveled ind.size agree (bound q ?_)
        rw [split]
        exact List.mem_append_left _ hq
      obtain rfl := first_unique (split.symm.trans split') there well'
        (fun good => not_failsWith good again) (fun good => not_failsWith good fails')
      obtain ⟨e₁, s₁, run, gist⟩ := again
      obtain ⟨e₂, s₂, run', gist'⟩ := fails'
      rw [run] at run'
      obtain ⟨rfl, -⟩ := EStateM.Result.error.inj run'
      exact .error (gist.symm.trans gist')

/-! ## Tasks -/

/-- What a task has done of its list: what it has run ended well from the first state, up to its
    failure. -/
def Origin (c : Circuit F) (hints : HintRegistry) (s₀ : State F) (ran : Set UInt32)
    (l : List UInt32) : Task F → Prop
  | .running rest => ∃ done, l = done ++ rest ∧ ∀ p ∈ done, p ∈ ran ∧ EndsWell c hints s₀ p
  | .failed e => ∃ done p rest, l = done ++ p :: rest ∧
      (∀ q ∈ done, EndsWell c hints s₀ q) ∧ FailsWith c hints s₀ p e

theorem Origin.mono {ran' : Set UInt32} {l : List UInt32} {task : Task F}
    (h : Origin c hints s₀ ran l task) (sub : ran ⊆ ran') : Origin c hints s₀ ran' l task := by
  cases task with
  | running rest =>
    obtain ⟨done, rfl, well⟩ := h
    exact ⟨done, rfl, fun p hp => ⟨sub (well p hp).1, (well p hp).2⟩⟩
  | failed e => exact h

/-- Tasks that are under way: their instructions have run in some order, and what they have still
    to run has not. -/
structure Underway (c : Circuit F) (hints : HintRegistry) (s₀ : State F)
    (lists : List (List UInt32)) (tasks : List (Task F)) (ran : Set UInt32) (s : State F) :
    Prop where
  merged : Merged c hints s₀ ran s
  inside : ∀ p ∈ ran, p ∈ lists.flatten
  origins : List.Forall₂ (Origin c hints s₀ ran) lists tasks
  rest : ∀ p ∈ remaining tasks, p ∈ lists.flatten
  fresh : ∀ p ∈ remaining tasks, p ∉ ran
  nodup : (remaining tasks).Nodup

theorem forall₂_middle {α β : Type} {R : α → β → Prop} {l : List α} {before after : List β} {b : β}
    (h : List.Forall₂ R l (before ++ b :: after)) : ∃ l₁ a l₂, l = l₁ ++ a :: l₂ ∧
      List.Forall₂ R l₁ before ∧ R a b ∧ List.Forall₂ R l₂ after := by
  induction before generalizing l with
  | nil =>
    cases h with
    | cons first others => exact ⟨[], _, _, rfl, .nil, first, others⟩
  | cons b' before ih =>
    cases h with
    | cons first others =>
      obtain ⟨l₁, a, l₂, rfl, h₁, hb, h₂⟩ := ih others
      exact ⟨_ :: l₁, a, l₂, rfl, .cons first h₁, hb, h₂⟩

theorem remaining_middle (before after : List (Task F)) (task : Task F) :
    remaining (before ++ task :: after)
      = remaining before ++ (remaining [task] ++ remaining after) := by
  simp only [remaining, List.flatMap_append, List.flatMap_cons, List.flatMap_nil, List.append_nil]

variable {lists : List (List UInt32)} {before after tasks tasks' : List (Task F)} {index : UInt32}
  {rest : List UInt32}

/-- The next instruction of a task is one that has not run. -/
theorem Underway.next (h : Underway c hints s₀ lists (before ++ .running (index :: rest) :: after)
    ran s) : index ∈ lists.flatten ∧ index ∉ ran := by
  have mem : index ∈ remaining (before ++ .running (index :: rest) :: after) := by
    rw [remaining_middle]
    simp [remaining]
  exact ⟨h.rest index mem, h.fresh index mem⟩

theorem Underway.advance (hp : F.IsPrime) (leveled : c.Leveled level)
    (ind : Independent c s₀ lists.flatten)
    (h : Underway c hints s₀ lists (before ++ .running (index :: rest) :: after) ran s)
    (task : Task F) (left : (remaining [task]).Sublist rest)
    (origin : ∀ done, (∀ p ∈ done, p ∈ ran ∧ EndsWell c hints s₀ p) →
      Origin c hints s₀ (insert index ran) (done ++ index :: rest) task) :
    Underway c hints s₀ lists (before ++ task :: after) (insert index ran)
      (stateAfter ((solveInstruction c hints index).run s)) := by
  obtain ⟨mem, fresh⟩ := h.next
  have remainingNow : remaining (before ++ .running (index :: rest) :: after)
      = remaining before ++ index :: (rest ++ remaining after) := by
    rw [remaining_middle]
    simp [remaining]
  have nodup := h.nodup
  rw [remainingNow, List.nodup_middle, List.nodup_cons] at nodup
  obtain ⟨absent, nodup⟩ := nodup
  have sub : (remaining (before ++ task :: after)).Sublist
      (remaining before ++ (rest ++ remaining after)) := by
    rw [remaining_middle]
    exact (left.append (List.Sublist.refl _)).append_left _
  have old {p : UInt32} (hp : p ∈ remaining (before ++ task :: after)) :
      p ∈ remaining (before ++ .running (index :: rest) :: after) ∧ p ≠ index := by
    have left := sub.subset hp
    refine ⟨?_, ?_⟩
    · rw [remainingNow, List.mem_append, List.mem_cons]
      rcases List.mem_append.1 left with left | left
      · exact .inl left
      · exact .inr (.inr left)
    · rintro rfl
      exact absent left
  refine ⟨(h.merged.step hp leveled ind h.inside mem fresh).2, fun p hp => ?_, ?_,
    fun p hp => h.rest p (old hp).1, fun p hp inserted => ?_, sub.nodup nodup⟩
  · obtain rfl | hp := Set.mem_insert_iff.1 hp
    · exact mem
    · exact h.inside p hp
  · obtain ⟨l₁, l, l₂, rfl, h₁, ⟨done, rfl, well⟩, h₂⟩ := forall₂_middle h.origins
    have grow : ran ⊆ insert index ran := Set.subset_insert index ran
    exact List.rel_append (h₁.imp fun _ _ o => o.mono grow)
      (.cons (origin done well) (h₂.imp fun _ _ o => o.mono grow))
  · obtain rfl | inserted := Set.mem_insert_iff.1 inserted
    · exact (old hp).2 rfl
    · exact h.fresh p (old hp).1 inserted

theorem Underway.step (hp : F.IsPrime) (leveled : c.Leveled level)
    (ind : Independent c s₀ lists.flatten) (h : Underway c hints s₀ lists tasks ran s)
    (step : TaskStep c hints (tasks, s) (tasks', s')) :
    ∃ ran', Underway c hints s₀ lists tasks' ran' s' := by
  cases step with
  | @runs before after index rest s s' run =>
    obtain ⟨mem, fresh⟩ := h.next
    have similar := (h.merged.step hp leveled ind h.inside mem fresh).1
    have well : EndsWell c hints s₀ index := by
      rw [run] at similar
      obtain ⟨s₁, first, -⟩ := similar.symm.of_ok
      exact ⟨s₁, first⟩
    have last := h.advance hp leveled ind (.running rest)
      (by simp [remaining]) fun done hdone => by
        refine ⟨done ++ [index], by simp, fun p hp => ?_⟩
        rcases List.mem_append.1 hp with hp | hp
        · exact ⟨Set.mem_insert_of_mem _ (hdone p hp).1, (hdone p hp).2⟩
        · rw [List.mem_singleton.1 hp]
          exact ⟨Set.mem_insert _ _, well⟩
    rw [run] at last
    exact ⟨_, last⟩
  | @fails before after index rest s s' e run =>
    obtain ⟨mem, fresh⟩ := h.next
    have similar := (h.merged.step hp leveled ind h.inside mem fresh).1
    have fails : FailsWith c hints s₀ index e := by
      rw [run] at similar
      obtain ⟨e', s₁, first, gist⟩ := similar.symm.of_error
      exact ⟨e', s₁, first, gist.symm⟩
    have last := h.advance hp leveled ind (.failed e)
      (by simp [remaining]) fun done hdone =>
        ⟨done, index, rest, rfl, fun q hq => (hdone q hq).2, fails⟩
    rw [run] at last
    exact ⟨_, last⟩

/-- Tasks that have ended without a failure have run all their instructions. -/
theorem endsWell_of_clean (origins : List.Forall₂ (Origin c hints s₀ ran) lists tasks)
    (finished : ∀ t ∈ tasks, t.HasEnded) (clean : ∀ t ∈ tasks, t.failure? = none) :
    ∀ p ∈ lists.flatten, p ∈ ran ∧ EndsWell c hints s₀ p := by
  induction origins with
  | nil => simp
  | @cons l task lists tasks first others ih =>
    have rest := ih (fun t ht => finished t (List.mem_cons_of_mem task ht))
      fun t ht => clean t (List.mem_cons_of_mem task ht)
    intro p hp
    rw [List.flatten_cons] at hp
    rcases List.mem_append.1 hp with hp | hp
    · cases task with
      | running left =>
        obtain ⟨done, rfl, well⟩ := first
        rw [show left = [] from finished _ List.mem_cons_self, List.append_nil] at hp
        exact well p hp
      | failed e => cases clean _ List.mem_cons_self
    · exact rest p hp

/-- Tasks that have ended come to what their instructions come to one by one. -/
theorem Underway.verdict (h : Underway c hints s₀ lists tasks ran s)
    (finished : ∀ t ∈ tasks, t.HasEnded) :
    Verdict c hints s₀ lists.flatten (tasksResult tasks s) := by
  unfold tasksResult
  split
  · next noneFailed =>
    have well := endsWell_of_clean h.origins finished (List.findSome?_eq_none_iff.1 noneFailed)
    have all : ran = { p | p ∈ lists.flatten } :=
      Set.ext fun p => ⟨h.inside p, fun hp => (well p hp).1⟩
    exact .ok (fun p hp => (well p hp).2) (all ▸ h.merged)
  · next e found =>
    obtain ⟨before, task, after, rfl, failure, clean⟩ := List.findSome?_eq_some_iff.1 found
    obtain ⟨l₁, l, l₂, rfl, h₁, here, -⟩ := forall₂_middle h.origins
    cases task with
    | running rest => cases failure
    | failed e' =>
      obtain rfl := Option.some.inj failure
      obtain ⟨done, p, rest, rfl, well, fails⟩ := here
      have earlier :=
        endsWell_of_clean h₁ (fun t ht => finished t (List.mem_append_left _ ht)) clean
      have parts : (l₁ ++ (done ++ p :: rest) :: l₂).flatten
          = (l₁.flatten ++ done) ++ p :: (rest ++ l₂.flatten) := by simp
      refine .error parts (fun q hq => ?_) fails
      · rcases List.mem_append.1 hq with hq | hq
        · exact (earlier q hq).2
        · exact well q hq

theorem Underway.run (hp : F.IsPrime) (leveled : c.Leveled level)
    (ind : Independent c s₀ lists.flatten) (h : Underway c hints s₀ lists tasks ran s)
    (run : TasksRun c hints (tasks, s) (tasks', s')) :
    ∃ ran', Underway c hints s₀ lists tasks' ran' s' := by
  generalize eq : (tasks', s') = last at run
  induction run generalizing tasks' s' with
  | refl =>
    obtain ⟨rfl, rfl⟩ := Prod.mk.inj eq
    exact ⟨ran, h⟩
  | @tail middle last _ step ih =>
    obtain ⟨tasks₁, s₁⟩ := middle
    obtain ⟨ran₁, h₁⟩ := ih rfl
    subst eq
    exact h₁.step hp leveled ind step

/-- At first every task has all its instructions before it. -/
theorem Underway.begin (ind : Independent c s₀ lists.flatten) (fills : Fills ∅ ∅ s₀ s) :
    Underway c hints s₀ lists (lists.map .running) ∅ s := by
  refine ⟨.begin fills, fun p hp => absurd hp (Set.notMem_empty p), ?_, fun p hp => ?_,
    fun p _ => Set.notMem_empty p, ?_⟩
  · rw [List.forall₂_map_right_iff, List.forall₂_same]
    exact fun l _ => ⟨[], rfl, by simp⟩
  · rwa [remaining_running] at hp
  · rw [remaining_running]
    exact ind.nodup

/-- What comes of tasks, interleaved in some way, is decided by the first state. -/
theorem tasksRun_verdict (hp : F.IsPrime) (leveled : c.Leveled level)
    (ind : Independent c s₀ lists.flatten) (fills : Fills ∅ ∅ s₀ s)
    (run : TasksRun c hints (lists.map .running, s) (tasks, s'))
    (finished : ∀ t ∈ tasks, t.HasEnded) :
    Verdict c hints s₀ lists.flatten (tasksResult tasks s') := by
  obtain ⟨ran, last⟩ := (Underway.begin ind fills).run hp leveled ind run
  exact last.verdict finished

/-! ## Levels -/

/-- What comes of a level, its tasks interleaved in some way, is decided by its first state. -/
theorem levelRuns_verdict (hp : F.IsPrime) (leveled : c.Leveled level) {config : SolverConfig}
    {number : ℕ} (ind : Independent c s indices)
    {r : EStateM.Result (Error F) (State F) Unit} (h : LevelRuns c config number indices s r) :
    Verdict c config.hints s indices r := by
  cases h with
  | whole unsplit =>
    -- A level that is not split is a single task.
    have single : [indices].flatten = indices := by simp
    have alone : TasksRun c config.hints ([indices].map .running, s) _ :=
      tasksRun_task c config.hints [] [] indices s
    have verdict := tasksRun_verdict hp leveled (by rwa [single]) (.refl _ _ s) alone (by
      intro t ht
      rw [List.mem_singleton.1 ht]
      exact taskAfter_hasEnded _)
    rw [single] at verdict
    cases result : (runInstructions c config.hints indices).run s with
    | ok u s' =>
      rw [result] at verdict
      exact verdict
    | error e s' =>
      rw [result] at verdict
      exact verdict
  | split split run finished =>
    have all : (tasksOf config indices).flatten = indices := flatten_slices ..
    have noted (d : Dispatch) : Fills ∅ ∅ s (s.withDispatch d) := ⟨.refl _ _, .refl _ _, id⟩
    have verdict := tasksRun_verdict hp leveled (by rwa [all]) (noted _) run finished
    rwa [all] at verdict

end CircuitWitness.Solver

import AbcKit.Proofs.HandlerTracking
import AbcKit.Proofs.ExceptionTables
/-!
Where the jumps of a run's finished bodies go.

Over a run of calls under strict ordering and with coverage off, all of which succeed,
`Intent.Follows` ties the intent of the calls (`Emitter.intent`) to the emitter: each open method
is tracked by its intent (`MethodIntent.Tracks`), each body finished so far reads back with the
jumps its calls meant landing on their targets (`Finished.Lands`), and the bodies written are
among the finished ones. Opening a method starts an empty intent, which tracks it; finishing one
reads its tracked code back; every other call steps the innermost intent
(`MethodIntent.Tracks.perform`): the calls that shape control flow by their own lemmas, the others
because they only write. A run keeps the intent following the emitter (`Intent.Follows.run`).

Main result: `Emitter.jumps_land`: in every body of such a run from a fresh emitter, each jump
of the flow and try calls goes exactly where the call that closes its construct says.
-/
namespace AbcKit.Emit

/-- A finished body reads back, while it is shorter than `2 ^ 31` bytes, the reach of a jump
table's displacements: it decodes, the jump each of its calls meant is the last jump of the call's
span and goes to exactly the jump's targets, and each label recorded for it is a `label`
instruction. -/
def Finished.Lands (f : Finished) : Prop :=
  f.body.length < 2 ^ 31 → ∃ L, Code.decode f.body = .ok L ∧ (∀ j ∈ f.jumps, j.LandsIn L) ∧
    ∀ a ∈ f.labels, (a, Instruction.simple SimpleOp.label) ∈ L

/-! ## A method's intent at its ends -/

@[simp]
theorem Intent.position_some (m : MethodState) : Intent.position (some m) = m.code.size := rfl

namespace MethodIntent

variable {lm : MethodIntent} {m : MethodState}

theorem step_of_shapesFlow {c : Call} (hc : c.shapesFlow = false) (sp : Span) : lm.step sp c = lm := by
  cases c <;> first | rfl | simp [Call.shapesFlow] at hc

theorem Tracks.start {s : StartMethod} (h : MethodState.ofStart s true = .ok m) :
    ({} : MethodIntent).Tracks m := by
  unfold MethodState.ofStart at h
  cases hb : s.firstFreeRegister with
  | error o =>
    rw [hb] at h
    cases h
  | ok base =>
    rw [hb] at h
    cases h
    exact ⟨rfl, ⟨⟨[], Buffer.Holds.empty⟩, by simp [MethodState.pending]⟩,
      by simp [MethodState.pending], ⟨.nil, .nil, .nil, .nil⟩, by simp, by simp⟩

/-- The code of a tracked method reads back as its intent says: it decodes to its layout, in
which each jump with known targets lands on them and each recorded label is one. -/
theorem Tracks.finish (h : lm.Tracks m) : (⟨m.code.toList, lm.jumps, lm.labels⟩ : Finished).Lands := by
  intro hlen
  obtain ⟨insts, hi⟩ := h.laid.code
  have hsize : m.code.size < 2 ^ 31 := by
    simpa [Buffer.toList, Buffer.size] using hlen
  refine ⟨m.code.layout, hi.layout ▸ hi.decode, fun j hj => ?_, h.labels⟩
  obtain ⟨-, s, i, hlast, -, ht⟩ := h.jumps j hj
  exact ⟨s, i, hlast, ht hsize⟩

end MethodIntent

/-! ## Each call keeps the innermost method tracked -/

namespace Emitter

variable {e e' : Emitter} {r : Reply}

theorem ok_of_none {act : EmitM Unit} (h : (do act; pure Reply.none) e = .ok r e') :
    act e = .ok () e' := by
  obtain ⟨u, e₁, h₁, h⟩ := EStateM.bind_eq_ok.mp h
  cases h
  exact h₁

theorem ok_of_number {act : EmitM Nat} (h : (Reply.number <$> act) e = .ok r e') :
    ∃ i, act e = .ok i e' := by
  obtain ⟨i, h₁, -⟩ := EStateM.map_eq_ok h
  exact ⟨i, h₁⟩

theorem perform_none {c : Call} (hs : ∀ s, c ≠ .startMethod s) (hm : e.methods = [])
    (h : perform c e = .ok r e') : e'.methods = [] := by
  cases hc : c.onRegions
  · have hg := (perform_ready (S := []) c hc e r e' (by simp [Inner, hm]) h).1.methods
    rw [hm] at hg
    exact hg.of_nil_left
  · exact absurd hm (perform_open hc hs h)

end Emitter

namespace MethodIntent

variable {lm : MethodIntent} {m : MethodState} {rest : List MethodState} {e e' : Emitter}
  {r : Reply}

open Emitter in
/-- **Every call that opens, closes or changes no region keeps a method tracked**: it keeps the
code, enters regions from call sites at most, and steps the intent over the code it wrote. The
calls that shape control flow each keep it by their own lemma; every other call only writes, and
leaves the intent as it was. -/
theorem Tracks.perform_proceeds (h : lm.Tracks m) (hm : e.methods = m :: rest) {c : Call}
    (hc : c.onRegions = false) (he : Emitter.perform c e = .ok r e') :
    ∃ m', e'.methods = m' :: rest ∧ m.Proceeds e'.assembler.pool m' ∧
      (lm.step ⟨m.code.size, m'.code.size⟩ c).Tracks m' := by
  cases hf : c.shapesFlow
  · have hin := (perform_adds c hf e r e' he).methods
    rw [hm] at hin
    obtain ⟨m', hm', ha⟩ := hin.of_cons_left
    have hen := perform_enters c hf (inner_of_head hm h.laid.code) he
    rw [hm, hm'] at hen
    cases hen with
    | head hE =>
      refine ⟨m', hm', .of_enters hE h.laid.code, ?_⟩
      rw [step_of_shapesFlow hf]
      exact h.adds ha
  cases c with
  | startMethod | finishMethod | tryBegin | catchClausesBegin | catchClause | catchClausesEnd
  | finallyClauseBegin | finallyClauseEnd => simp [Call.onRegions] at hc
  | ifBranch op => exact ifBranch_tracks h hm (ok_of_none he)
  | elseBranch => exact elseBranch_tracks h hm (ok_of_none he)
  | patchIf => exact patchIf_tracks h hm (ok_of_none he)
  | patchElse => exact patchElse_tracks h hm (ok_of_none he)
  | loopBegin =>
    obtain ⟨i, hi⟩ := ok_of_number he
    exact loopBegin_tracks h hm hi
  | doLoopBegin =>
    obtain ⟨i, hi⟩ := ok_of_number he
    exact doLoopBegin_tracks h hm hi
  | labelBegin =>
    obtain ⟨i, hi⟩ := ok_of_number he
    exact labelBegin_tracks h hm hi
  | switchBegin =>
    obtain ⟨i, hi⟩ := ok_of_number he
    exact switchBegin_tracks h hm hi
  | patchLoopBegin index => exact patchLoopBegin_tracks h hm (ok_of_none he)
  | loopBack index op => exact loopBack_tracks h hm (ok_of_none he)
  | continueLoop index => exact continueLoop_tracks h hm (ok_of_none he)
  | breakLoop index => exact breakLoop_tracks h hm (ok_of_none he)
  | patchContinue index => exact patchContinue_tracks h hm (ok_of_none he)
  | patchBreak index => exact patchBreak_tracks h hm (ok_of_none he)
  | caseLabel index => exact caseLabel_tracks h hm (ok_of_none he)
  | defaultLabel index => exact defaultLabel_tracks h hm (ok_of_none he)
  | switchTable index => exact switchTable_tracks h hm (ok_of_none he)
  | switchDispatch index => exact switchDispatch_tracks h hm (ok_of_none he)
  | _ => simp [Call.shapesFlow] at hf

open Emitter in
/-- **Every call on an open method keeps it tracked**: its intent steps by the call over the code
the call wrote. The calls on try regions keep it by their own lemmas. -/
theorem Tracks.perform (h : lm.Tracks m) (hm : e.methods = m :: rest) {c : Call}
    (hs : ∀ s, c ≠ .startMethod s) (hf : ∀ f, c ≠ .finishMethod f)
    (he : Emitter.perform c e = .ok r e') :
    ∃ m', e'.methods = m' :: rest ∧ (lm.step ⟨m.code.size, m'.code.size⟩ c).Tracks m' := by
  cases hc : c.onRegions
  · obtain ⟨m', hm', -, ht⟩ := h.perform_proceeds hm hc he
    exact ⟨m', hm', ht⟩
  -- each region lemma also says what the call did to the region; its last part is the tracking
  cases c with
  | startMethod s => exact absurd rfl (hs s)
  | finishMethod f => exact absurd rfl (hf f)
  | tryBegin hasFinally =>
    exact (tryBegin_tracks h hm (ok_of_none he)).imp fun _ h' => ⟨h'.1, h'.2.2.2⟩
  | catchClausesBegin =>
    exact (catchClausesBegin_tracks h hm (ok_of_none he)).imp fun _ h' => ⟨h'.1, h'.2.2.2⟩
  | catchClause excType varName =>
    obtain ⟨p, hp⟩ := ok_of_number he
    exact (catchClause_tracks h hm hp).imp fun _ h' => ⟨h'.1, h'.2.2.2⟩
  | catchClausesEnd =>
    exact (catchClausesEnd_tracks h hm (ok_of_none he)).imp fun _ h' => ⟨h'.1, h'.2.2.2⟩
  | finallyClauseBegin =>
    exact (finallyClauseBegin_tracks h hm (ok_of_none he)).imp fun _ h' => ⟨h'.1, h'.2.2.2⟩
  | finallyClauseEnd =>
    exact (finallyClauseEnd_tracks h hm (ok_of_none he)).imp fun _ h' => ⟨h'.1, h'.2.2.2⟩
  | _ => simp [Call.onRegions] at hc

end MethodIntent

/-! ## The intent follows the emitter -/

/-- The intent of a run follows the emitter: ordering is strict and coverage off, each open
method is tracked by its intent, innermost first, each body finished so far reads back as its
calls meant, and the bodies written are finished ones, in order. -/
structure Intent.Follows (I : Intent) (e : Emitter) : Prop where
  strict : e.config.strictOrdering = true
  coverage : e.config.coverage = false
  methods : List.Forall₂ MethodIntent.Tracks I.methods e.methods
  finished : ∀ f ∈ I.finished, f.Lands
  bodies : (e.assembler.bodies.map MethodBody.code).Sublist (I.finished.map Finished.body)

namespace Intent.Follows

variable {I : Intent} {e e' : Emitter} {c : Call} {r : Reply}

theorem startMethod (hI : I.Follows e) {s : StartMethod} (before after : Option MethodState)
    (h : Emitter.perform (.startMethod s) e = .ok r e') :
    (I.step before after (.startMethod s)).Follows e' := by
  simp only [Emitter.perform] at h
  obtain ⟨i, e₁, h₁, h⟩ := EStateM.bind_eq_ok.mp h
  cases h
  obtain ⟨m, a, hm, hidx, rfl⟩ := Emitter.startMethod_ok h₁
  rw [hI.strict] at hm
  exact ⟨hI.strict, hI.coverage, .cons (MethodIntent.Tracks.start hm) hI.methods, hI.finished,
    (Assembler.methodIndex_sameBodies _ _ _ _ hidx).bodies ▸ hI.bodies⟩

/-- finishing a method reads its tracked code back as a finished body, which is the body
written, if any -/
theorem finishMethod (hI : I.Follows e) {f : FinishMethod} (after : Option MethodState)
    (h : Emitter.perform (.finishMethod f) e = .ok r e') :
    (I.step e.methods.head? after (.finishMethod f)).Follows e' := by
  simp only [Emitter.perform] at h
  obtain ⟨i, e₁, h₁, h⟩ := EStateM.bind_eq_ok.mp h
  cases h
  obtain ⟨m, rest, hm, hm', hconfig, body, hbodies, -, hbody⟩ := Emitter.finishMethod_bodies h₁
  have hmethods := hI.methods
  rw [hm] at hmethods
  obtain ⟨lm, lms, hlm, hrest, hIm⟩ := List.forall₂_cons_right_iff.mp hmethods
  have hstep : I.step e.methods.head? after (.finishMethod f) =
      { methods := lms, finished := I.finished ++ [⟨m.code.toList, lm.jumps, lm.labels⟩] } := by
    rw [Intent.step.eq_2 _ _ _ _ _ _ hIm, hm]
    rfl
  rw [hstep]
  refine ⟨hconfig ▸ hI.strict, hconfig ▸ hI.coverage, hm' ▸ hrest, fun g hg => ?_, ?_⟩
  · rcases List.mem_append.mp hg with hg | hg
    · exact hI.finished g hg
    · rw [List.mem_singleton.mp hg]
      exact hlm.finish
  · rw [hbodies, List.map_append, List.map_append]
    cases body with
    | none =>
      rw [Option.toList_none, List.map_nil, List.append_nil]
      exact hI.bodies.trans (List.sublist_append_left _ _)
    | some b =>
      rw [Option.toList_some, List.map_singleton, (hbody b rfl).1]
      exact hI.bodies.append (List.Sublist.refl _)

/-- every other call steps the innermost method's intent, and leaves none open when none was -/
theorem other (hI : I.Follows e) (hs : ∀ s, c ≠ .startMethod s) (hf : ∀ f, c ≠ .finishMethod f)
    (h : Emitter.perform c e = .ok r e') :
    (I.step e.methods.head? e'.methods.head? c).Follows e' := by
  have hb := Emitter.perform_keepsBodies c hf e r e' h
  cases hm : e.methods with
  | nil =>
    have hmethods := hI.methods
    rw [hm] at hmethods
    have hI₀ : I.methods = [] := List.forall₂_nil_right_iff.mp hmethods
    rw [Intent.step.eq_4 _ _ _ _ hs hI₀]
    refine ⟨hb.config ▸ hI.strict, hb.config ▸ hI.coverage, ?_, hI.finished, hb.bodies ▸ hI.bodies⟩
    rw [Emitter.perform_none hs hm h, hI₀]
    exact .nil
  | cons m rest =>
    have hmethods := hI.methods
    rw [hm] at hmethods
    obtain ⟨lm, lms, hlm, hrest, hIm⟩ := List.forall₂_cons_right_iff.mp hmethods
    obtain ⟨m', hm', hlm'⟩ := hlm.perform hm hs hf h
    rw [Intent.step.eq_3 _ _ _ _ _ _ hs hf hIm, hm', List.head?_cons, List.head?_cons,
      Intent.position_some, Intent.position_some]
    exact ⟨hb.config ▸ hI.strict, hb.config ▸ hI.coverage, hm' ▸ .cons hlm' hrest, hI.finished,
      hb.bodies ▸ hI.bodies⟩

/-- **Every successful call keeps the intent following the emitter.** -/
theorem step (hI : I.Follows e) (h : Emitter.perform c e = .ok r e') :
    (I.step e.methods.head? e'.methods.head? c).Follows e' := by
  cases c with
  | startMethod s => exact hI.startMethod _ _ h
  | finishMethod f => exact hI.finishMethod _ h
  | _ => exact hI.other (by simp) (by simp) h

/-- **A run whose calls all succeed keeps the intent following the emitter.** -/
theorem run : ∀ (calls : List Call) {e e' : Emitter} {I : Intent} {steps : List Step},
    I.Follows e → Emitter.runCalls e calls = (steps, some e') → (∀ s ∈ steps, s.result.isOk) →
    (I.run e.methods.head? calls steps).Follows e'
  | [], e, e', I, steps, hI, hrun, _ => by
    simp only [Emitter.runCalls, Prod.mk.injEq, Option.some.injEq] at hrun
    obtain ⟨rfl, rfl⟩ := hrun
    exact hI
  | c :: rest, e, e', I, steps, hI, hrun, hok => by
    cases hp : Emitter.perform c e with
    | ok r e₁ =>
      rw [Emitter.runCalls_ok hp] at hrun
      obtain ⟨hsteps, hfinal⟩ := Prod.mk.inj hrun
      subst hsteps
      exact run rest (hI.step hp) (Prod.ext rfl hfinal)
        fun s hs => hok s (List.mem_cons_of_mem _ hs)
    | error err e₁ =>
      cases err with
      | error err =>
        rw [Emitter.runCalls_reported hp] at hrun
        have := hok _ ((Prod.mk.inj hrun).1 ▸ List.mem_cons_self)
        simp [Except.isOk, Except.toBool] at this
      | abort msg =>
        rw [Emitter.runCalls_aborted hp] at hrun
        cases hrun

end Intent.Follows

/-- **Every jump of a run's finished bodies lands where its calls meant it to.** Take a run of
calls from a fresh emitter under strict ordering and with coverage off, in which every call
succeeds (so none reports an ordering violation). Every body the run writes is the code of a
method it finished, in order. For each method finished, while its code is shorter than `2 ^ 31`
bytes, the code decodes, each label written for a loop top or a case is a `label` instruction,
and each jump its flow and try calls meant is the last branch or jump table that call wrote and
goes to exactly the targets `Emitter.intent` gives it: the branch of `if_branch` past the jump of
its `else_branch` or to its `patch_if`, that jump to its `patch_else`, the entry of a loop or
switch to its `patch_loop_begin` or `switch_table`, `loop_back` to its loop's label, each break
and continue to its frame's `patch_break` or `patch_continue`, a switch's jump table to its case
labels in order and its default, and the jumps over and out of handlers to `catch_clauses_end`. -/
theorem Emitter.jumps_land (config : Config) (calls : List Call) (steps : List Step) (e : Emitter)
    (hstrict : config.strictOrdering = true) (hcov : config.coverage = false)
    (hrun : Emitter.runCalls { config } calls = (steps, some e)) (hok : ∀ s ∈ steps, s.result.isOk) :
    (e.assembler.bodies.map MethodBody.code).Sublist
        ((Emitter.intent { config } calls).finished.map Finished.body) ∧
      ∀ f ∈ (Emitter.intent { config } calls).finished, f.body.length < 2 ^ 31 →
        ∃ L, Code.decode f.body = .ok L ∧ (∀ j ∈ f.jumps, j.LandsIn L) ∧
          ∀ a ∈ f.labels, (a, Instruction.simple SimpleOp.label) ∈ L := by
  have hI := Intent.Follows.run calls (I := {}) ⟨hstrict, hcov, .nil, by simp, by simp [Assembler.empty]⟩ hrun hok
  have hintent : Emitter.intent { config } calls =
      Intent.run {} ({ config } : Emitter).methods.head? calls steps := by
    rw [Emitter.intent, hrun]
  rw [hintent]
  exact ⟨hI.bodies, hI.finished⟩

/-- a method that branches over its return -/
def Call.branchingMethod : List Call :=
  [.startMethod { name := "f" }, .pushBool true, .ifBranch ⟨.ifTrue, rfl⟩, .patchIf, .returnVoid,
    .finishMethod {}]

/-- the branching method, emitted under strict ordering, succeeds at every call and finishes a
body with a jump, which lands -/
theorem Emitter.jumps_land_branching :
    ∃ steps e, Emitter.runCalls { config := { strictOrdering := true } } Call.branchingMethod =
        (steps, some e) ∧ (∀ s ∈ steps, s.result.isOk) ∧
      (∃ f ∈ (Emitter.intent { config := { strictOrdering := true } } Call.branchingMethod).finished,
        f.jumps ≠ [] ∧ f.body.length < 2 ^ 31) ∧
      (e.assembler.bodies.map MethodBody.code).Sublist
        ((Emitter.intent { config := { strictOrdering := true } } Call.branchingMethod).finished.map
          Finished.body) ∧
      ∀ f ∈ (Emitter.intent { config := { strictOrdering := true } } Call.branchingMethod).finished,
        f.body.length < 2 ^ 31 →
          ∃ L, Code.decode f.body = .ok L ∧ (∀ j ∈ f.jumps, j.LandsIn L) ∧
            ∀ a ∈ f.labels, (a, Instruction.simple SimpleOp.label) ∈ L := by
  obtain ⟨steps, e, hrun, hok⟩ :=
    Emitter.runCalls_succeeds { config := { strictOrdering := true } } Call.branchingMethod
      (by decide +kernel)
  have hjump : ∃ f ∈ (Emitter.intent { config := { strictOrdering := true } }
      Call.branchingMethod).finished, f.jumps ≠ [] ∧ f.body.length < 2 ^ 31 := by
    decide +kernel
  exact ⟨steps, e, hrun, hok, hjump, Emitter.jumps_land _ _ _ _ rfl rfl hrun hok⟩

end AbcKit.Emit

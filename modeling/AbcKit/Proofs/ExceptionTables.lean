import AbcKit.Proofs.TryRegions
import AbcKit.Proofs.MethodStack
/-!
The exception tables of a run.

Over a run of calls under strict ordering that all succeed, `TryLedger.Follows` ties the ledger of
the try calls to the emitter: each open method agrees with its record (`MethodState.Recorded`),
and each body finished so far with the entries its calls made (`MethodBody.Recorded`). Opening a
method starts an empty record; each try call keeps the record of the innermost method; finishing
a method turns its record into its body's, whose table then fits its code; every other call grows
the innermost method's code and keeps its table and try regions (`TryLedger.Follows.step`). A run
keeps the ledger following the emitter (`TryLedger.Follows.run`).

Main result: `Emitter.exceptionTables_recorded`: every body of a run from a fresh emitter has an
exception table that fits its code, innermost regions first, with the entries its try calls
describe, each clause entry at the index its call returned.
-/
namespace AbcKit

/-- A finished body agrees with the entries its try calls made: while its code is below `2 ^ 32`
bytes, its exception table fits its code, each entry is as its call gives it, and each clause
entry's index is what its call returned. -/
def MethodBody.Recorded (entries : List Emit.EntryRecord) (b : MethodBody) : Prop :=
  b.code.length < 2 ^ 32 → b.TableFits ∧ List.Forall₂ Emit.EntryRecord.Describes entries b.exceptions ∧
    Emit.MethodRecord.Replies entries

namespace Emit

theorem Innermost.of_nil_left {r : MethodState → MethodState → Prop} {ms' : List MethodState}
    (h : Innermost r [] ms') : ms' = [] := by
  cases h
  rfl

/-! ## The ledger's steps -/

theorem MethodRecord.step_of_onRegions {R : MethodRecord} {a : Nat} {c : Call} {r : Reply}
    (hc : c.onRegions = false) : R.step a c r = R := by
  cases c <;> first | rfl | simp [Call.onRegions] at hc

theorem TryLedger.step_of_onRegions {L : TryLedger} {a : Nat} {c : Call} {r : Reply}
    (hc : c.onRegions = false) : L.step a c r = L := by
  unfold TryLedger.step
  split
  · simp [Call.onRegions] at hc
  · simp [Call.onRegions] at hc
  · next R ms _ _ hms =>
    rw [MethodRecord.step_of_onRegions hc, ← hms]
  · rfl

/-- a call on the innermost method's try regions steps the innermost record -/
theorem TryLedger.step_innermost {L : TryLedger} {a : Nat} {c : Call} {r : Reply}
    {R : MethodRecord} {Rs : List MethodRecord} (hs : ∀ s, c ≠ .startMethod s)
    (hf : ∀ f, c ≠ .finishMethod f) (hm : L.methods = R :: Rs) :
    L.step a c r = { L with methods := R.step a c r :: Rs } := by
  unfold TryLedger.step
  split
  · exact absurd rfl (hs _)
  · exact absurd rfl (hf _)
  · next R' ms _ _ hms =>
    rw [hm] at hms
    cases hms
    rfl
  · next hms => simp [hm] at hms

/-! ## A method's record at its ends -/

namespace MethodState

variable {m : MethodState}

theorem Recorded.start {s : StartMethod} (h : MethodState.ofStart s true = .ok m) :
    m.Recorded {} := by
  unfold MethodState.ofStart at h
  cases hb : s.firstFreeRegister with
  | error o =>
    rw [hb] at h
    cases h
  | ok base =>
    rw [hb] at h
    cases h
    refine ⟨rfl, ⟨⟨[], Buffer.Holds.empty⟩, by simp [MethodState.pending]⟩, .nil, fun _ => ?_⟩
    refine ⟨⟨by simp, by simp, by simp, by simp, by simp⟩, .nil, fun p E hE => ?_⟩
    simp at hE

/-- The table of a method fits its code once the code is a body's: the entries' ranges and
handlers are ordered and within the code, and their addresses are boundaries of the layout the
code decodes to. -/
theorem TableShape.fits {b : MethodBody} (h : m.TableShape) (hl : m.code.Laid)
    (hc : b.code = m.code.toList) (hx : b.exceptions = m.exceptions) : b.TableFits := by
  obtain ⟨insts, hholds⟩ := hl
  have hsize : b.code.length = m.code.size := by
    rw [hc]
    simp [Buffer.size, Buffer.toList]
  -- a boundary of the code is one of its only layout's
  have hbound : ∀ a, m.code.Boundary a →
      a ∈ (Instruction.place 0 insts).map Prod.fst ∨ a = m.code.size := by
    rintro a ⟨insts', h', ha⟩
    rwa [hholds.unique h']
  refine ⟨fun x hx' => ?_, ⟨_, hc ▸ hholds.decode, fun x hx' a ha => ?_⟩, hx ▸ h.innermostFirst⟩
  · have hp := h.entries x (hx ▸ hx')
    exact ⟨UInt32.le_iff_toNat_le.mpr hp.range, UInt32.lt_iff_toNat_lt.mpr hp.handler,
      hsize ▸ hp.within⟩
  · have hp := h.entries x (hx ▸ hx')
    rw [hsize]
    simp only [List.mem_cons, List.not_mem_nil, or_false] at ha
    rcases ha with rfl | rfl | rfl
    exacts [hbound _ hp.start, hbound _ hp.stop, hbound _ hp.target]

theorem Recorded.body {R : MethodRecord} {b : MethodBody} (h : m.Recorded R)
    (hc : b.code = m.code.toList) (hx : b.exceptions = m.exceptions) : b.Recorded R.entries := by
  intro hlen
  have hsize : m.code.size < 2 ^ 32 := by
    have : b.code.length = m.code.size := by
      rw [hc]
      simp [Buffer.size, Buffer.toList]
    omega
  obtain ⟨hshape, hentries, hreplies⟩ := h.table hsize
  exact ⟨hshape.fits h.laid.code hc hx, hx ▸ hentries, hreplies⟩

end MethodState

/-! ## The ledger follows the emitter -/

/-- The ledger follows the emitter: strict ordering is on, each open method agrees with its
record, and each body finished so far with the entries its calls made. -/
structure TryLedger.Follows (L : TryLedger) (e : Emitter) : Prop where
  strict : e.config.strictOrdering = true
  methods : List.Forall₂ (fun R m => MethodState.Recorded R m) L.methods e.methods
  bodies : List.Forall₂ MethodBody.Recorded L.bodies e.assembler.bodies

namespace Emitter

variable {e e' : Emitter} {r : Reply}

theorem openBlock_open {expected : List BlockState} {what : String} {x : Option Nat}
    (h : openBlock expected what e = .ok x e') : e.methods ≠ [] := by
  intro hm
  unfold openBlock current at h
  obtain ⟨m, e₁, h₁, -⟩ := EStateM.bind_eq_ok.mp h
  obtain ⟨e₀, e₂, h₀, h₁⟩ := EStateM.bind_eq_ok.mp h₁
  cases h₀
  rw [hm] at h₁
  cases h₁

theorem perform_open {c : Call} (hc : c.onRegions = true) (hs : ∀ s, c ≠ .startMethod s)
    (h : perform c e = .ok r e') : e.methods ≠ [] := by
  have hblock {α : Type} {expected : List BlockState} {what : String}
      {k : Option Nat → EmitM α} {x : α} {e₁ : Emitter} (h : (openBlock expected what >>= k) e = .ok x e₁) :
      e.methods ≠ [] :=
    let ⟨_, _, h₁, _⟩ := EStateM.bind_eq_ok.mp h
    openBlock_open h₁
  cases c <;> simp only [Call.onRegions, Bool.false_eq_true] at hc <;>
    simp only [perform] at h
  case startMethod s => exact absurd rfl (hs s)
  case finishMethod f =>
    obtain ⟨i, e₁, h₁, -⟩ := EStateM.bind_eq_ok.mp h
    obtain ⟨m, rest, hm, -⟩ := finishMethod_ok h₁
    simp [hm]
  case tryBegin f =>
    obtain ⟨_, e₁, h₁, -⟩ := EStateM.bind_eq_ok.mp h
    unfold tryBegin at h₁
    obtain ⟨_, e₂, h₂, h₁⟩ := EStateM.bind_eq_ok.mp h₁
    intro hm
    have hw := (flushPosition_writes _ _ _ h₂).methods
    rw [hm] at hw
    unfold onMethod at h₁
    rw [hw.of_nil_left] at h₁
    cases h₁
  case catchClausesBegin =>
    obtain ⟨_, e₁, h₁, -⟩ := EStateM.bind_eq_ok.mp h
    unfold catchClausesBegin at h₁
    exact hblock h₁
  case catchClausesEnd =>
    obtain ⟨_, e₁, h₁, -⟩ := EStateM.bind_eq_ok.mp h
    unfold catchClausesEnd at h₁
    exact hblock h₁
  case finallyClauseBegin =>
    obtain ⟨_, e₁, h₁, -⟩ := EStateM.bind_eq_ok.mp h
    unfold finallyClauseBegin at h₁
    exact hblock h₁
  case finallyClauseEnd =>
    obtain ⟨_, e₁, h₁, -⟩ := EStateM.bind_eq_ok.mp h
    unfold finallyClauseEnd at h₁
    exact hblock h₁
  case catchClause t v =>
    obtain ⟨_, h₁, -⟩ := EStateM.map_eq_ok h
    unfold catchClause at h₁
    exact hblock h₁

end Emitter

namespace TryLedger.Follows

variable {L : TryLedger} {e e' : Emitter} {c : Call} {r : Reply}

theorem record_of_cons (hL : L.Follows e) {m : MethodState} {rest : List MethodState}
    (hm : e.methods = m :: rest) : ∃ R Rs, L.methods = R :: Rs ∧ m.Recorded R ∧
      List.Forall₂ (fun R m => MethodState.Recorded R m) Rs rest := by
  have hrec := hL.methods
  rw [hm] at hrec
  obtain ⟨R, Rs, hR, hrest, hLm⟩ := List.forall₂_cons_right_iff.mp hrec
  exact ⟨R, Rs, hLm, hR, hrest⟩

/-- a call that opens, closes or lands no try region grows the innermost method's code and keeps
its table and regions, so its record still holds -/
theorem of_onRegions (hL : L.Follows e) (hc : c.onRegions = false)
    (h : Emitter.perform c e = .ok r e') : L.Follows e' := by
  have hb := Emitter.perform_keepsBodies c (by rintro f rfl; simp [Call.onRegions] at hc) e r e' h
  cases hm : e.methods with
  | nil =>
    have hg := (Emitter.perform_ready (S := []) c hc e r e' (by simp [Emitter.Inner, hm]) h).1
    have hg' := hg.methods
    rw [hm] at hg'
    have hrec := hL.methods
    rw [hm] at hrec
    exact ⟨hg.config ▸ hL.strict, hg'.of_nil_left ▸ hrec, hb.bodies ▸ hL.bodies⟩
  | cons m rest =>
    obtain ⟨R, Rs, hLm, hR, hrest⟩ := hL.record_of_cons hm
    have hready : Emitter.Inner (MethodState.Ready []) e := by
      intro m' hm'
      simp only [hm, List.head?_cons, Option.mem_def, Option.some.injEq] at hm'
      exact hm' ▸ hR.ready
    obtain ⟨hg, hready'⟩ := Emitter.perform_ready (S := []) c hc e r e' hready h
    have hg' := hg.methods
    rw [hm] at hg'
    obtain ⟨m', hm', hmm'⟩ := hg'.of_cons_left
    have hlaid : m'.Laid := (hready' m' (by simp [hm'])).1
    refine ⟨hg.config ▸ hL.strict, ?_, hb.bodies ▸ hL.bodies⟩
    rw [hLm, hm']
    exact .cons (hR.grow hmm' hlaid) hrest

/-- a call on the innermost method's try regions that keeps its record steps the ledger's -/
theorem innermost (hL : L.Follows e) {a : Nat} (hc : c.definesRecords = false)
    (hs : ∀ s, c ≠ .startMethod s) (hf : ∀ f, c ≠ .finishMethod f)
    (h : Emitter.perform c e = .ok r e') (hopen : e.methods ≠ [])
    (hrec : ∀ m rest R, e.methods = m :: rest → m.Recorded R →
      e'.config = e.config ∧ ∃ m', e'.methods = m' :: rest ∧ m'.Recorded (R.step a c r)) :
    (L.step a c r).Follows e' := by
  have hb := (Emitter.perform_interns c hc).keepsBodies e r e' h
  obtain ⟨m, rest, hm⟩ := List.exists_cons_of_ne_nil hopen
  obtain ⟨R, Rs, hLm, hR, hrest⟩ := hL.record_of_cons hm
  obtain ⟨hconfig, m', hm', hR'⟩ := hrec m rest R hm hR
  rw [TryLedger.step_innermost hs hf hLm]
  exact ⟨hconfig ▸ hL.strict, hm' ▸ .cons hR' hrest, hb.bodies ▸ hL.bodies⟩

theorem startMethod (hL : L.Follows e) {s : StartMethod} {a : Nat}
    (h : Emitter.perform (.startMethod s) e = .ok r e') :
    (L.step a (.startMethod s) r).Follows e' := by
  simp only [Emitter.perform] at h
  obtain ⟨i, e₁, h₁, h⟩ := EStateM.bind_eq_ok.mp h
  cases h
  obtain ⟨m, a', hm, hidx, rfl⟩ := Emitter.startMethod_ok h₁
  rw [hL.strict] at hm
  exact ⟨hL.strict, .cons (MethodState.Recorded.start hm) hL.methods,
    (Assembler.methodIndex_sameBodies _ _ _ _ hidx).bodies ▸ hL.bodies⟩

/-- finishing a method that has a body turns its record into its body's -/
theorem finishMethod (hL : L.Follows e) {f : FinishMethod} {a : Nat}
    (h : Emitter.perform (.finishMethod f) e = .ok r e') :
    (L.step a (.finishMethod f) r).Follows e' := by
  simp only [Emitter.perform] at h
  obtain ⟨i, e₁, h₁, h⟩ := EStateM.bind_eq_ok.mp h
  cases h
  obtain ⟨m, rest, hm, hm', hconfig, body, hbodies, hsome, hbody⟩ := Emitter.finishMethod_bodies h₁
  obtain ⟨R, Rs, hLm, hR, hrest⟩ := hL.record_of_cons hm
  have hstep : L.step a (.finishMethod f) (.number i.toNat) = { methods := Rs, bodies :=
      if !f.isNative && !f.isInterface then L.bodies ++ [R.entries] else L.bodies } := by
    unfold TryLedger.step
    rw [hLm]
  rw [hstep]
  refine ⟨hconfig ▸ hL.strict, hm' ▸ hrest, ?_⟩
  rw [hbodies]
  cases body with
  | none =>
    rw [← hsome]
    simpa using hL.bodies
  | some b =>
    rw [← hsome]
    obtain ⟨hcode, hexc, -⟩ := hbody b rfl
    exact List.rel_append hL.bodies (.cons (hR.body hcode hexc) .nil)

/-- **Every successful call keeps the ledger following the emitter.** -/
theorem step (hL : L.Follows e) (h : Emitter.perform c e = .ok r e') :
    (L.step e.address c r).Follows e' := by
  cases hc : c.onRegions
  · rw [TryLedger.step_of_onRegions hc]
    exact hL.of_onRegions hc h
  have hopen (hs : ∀ s, c ≠ .startMethod s) : e.methods ≠ [] := Emitter.perform_open hc hs h
  cases c <;> simp only [Call.onRegions, Bool.false_eq_true] at hc
  case startMethod s => exact hL.startMethod h
  case finishMethod f => exact hL.finishMethod h
  case tryBegin f =>
    have hp := h
    simp only [Emitter.perform] at hp
    obtain ⟨u, e₁, h₁, hp⟩ := EStateM.bind_eq_ok.mp hp
    cases hp
    exact hL.innermost rfl (by simp) (by simp) h (hopen (by simp)) fun m rest R hm hR =>
      Emitter.tryBegin_recorded h₁ hm hR
  case catchClausesBegin =>
    have hp := h
    simp only [Emitter.perform] at hp
    obtain ⟨u, e₁, h₁, hp⟩ := EStateM.bind_eq_ok.mp hp
    cases hp
    exact hL.innermost rfl (by simp) (by simp) h (hopen (by simp)) fun m rest R hm hR =>
      Emitter.catchClausesBegin_recorded h₁ hm hR
  case catchClause t v =>
    have hp := h
    simp only [Emitter.perform] at hp
    obtain ⟨p, h₁, rfl⟩ := EStateM.map_eq_ok hp
    exact hL.innermost rfl (by simp) (by simp) h (hopen (by simp)) fun m rest R hm hR =>
      Emitter.catchClause_recorded h₁ hm hR
  case catchClausesEnd =>
    have hp := h
    simp only [Emitter.perform] at hp
    obtain ⟨u, e₁, h₁, hp⟩ := EStateM.bind_eq_ok.mp hp
    cases hp
    exact hL.innermost rfl (by simp) (by simp) h (hopen (by simp)) fun m rest R hm hR =>
      Emitter.catchClausesEnd_recorded h₁ hm hR
  case finallyClauseBegin =>
    have hp := h
    simp only [Emitter.perform] at hp
    obtain ⟨u, e₁, h₁, hp⟩ := EStateM.bind_eq_ok.mp hp
    cases hp
    exact hL.innermost rfl (by simp) (by simp) h (hopen (by simp)) fun m rest R hm hR =>
      Emitter.finallyClauseBegin_recorded h₁ hm hR
  case finallyClauseEnd =>
    have hp := h
    simp only [Emitter.perform] at hp
    obtain ⟨u, e₁, h₁, hp⟩ := EStateM.bind_eq_ok.mp hp
    cases hp
    exact hL.innermost rfl (by simp) (by simp) h (hopen (by simp)) fun m rest R hm hR =>
      Emitter.finallyClauseEnd_recorded h₁ hm hR

/-- **A run whose calls all succeed keeps the ledger following the emitter.** -/
theorem run : ∀ (calls : List Call) {e e' : Emitter} {L : TryLedger} {steps : List Step},
    L.Follows e → Emitter.runCalls e calls = (steps, some e') → (∀ s ∈ steps, s.result.isOk) →
    (Emitter.tryLedger e calls L).Follows e'
  | [], e, e', L, steps, hL, hrun, _ => by
    simp only [Emitter.runCalls, Prod.mk.injEq, Option.some.injEq] at hrun
    rw [← hrun.2]
    exact hL
  | c :: rest, e, e', L, steps, hL, hrun, hok => by
    cases hp : Emitter.perform c e with
    | ok r e₁ =>
      rw [Emitter.runCalls_ok hp] at hrun
      obtain ⟨hsteps, hfinal⟩ := Prod.mk.inj hrun
      have hledger : Emitter.tryLedger e (c :: rest) L =
          Emitter.tryLedger e₁ rest (L.step e.address c r) := by
        rw [Emitter.tryLedger, hp]
      rw [hledger]
      exact run rest (hL.step hp) (Prod.ext rfl hfinal)
        fun s hs => hok s (hsteps ▸ List.mem_cons_of_mem _ hs)
    | error err e₁ =>
      cases err with
      | error err =>
        rw [Emitter.runCalls_reported hp] at hrun
        have := hok _ ((Prod.mk.inj hrun).1 ▸ List.mem_cons_self)
        simp [Except.isOk, Except.toBool] at this
      | abort msg =>
        rw [Emitter.runCalls_aborted hp] at hrun
        cases hrun

end TryLedger.Follows

/-- **The exception tables of a run fit their bodies, innermost regions first, as the try calls
describe them.** Take a run of calls from a fresh emitter under strict ordering, in which every
call succeeds (so no call reports an ordering violation). Pair each body written with the entries
the ledger of the try calls records for its method. While a body's code is below `2 ^ 32` bytes:
each entry's range starts no later than it ends, its handler starts after the range and within
the code, and all three addresses are instruction boundaries of the decoded code; no entry's range
lies strictly within the range of an entry before it; each entry has the range its call records
(from the address current at the region's `try_begin` to the one current at its
`catch_clauses_begin`, or at `finally_clause_begin` for the catch-all of a finally body, which has
no type and no variable name); and each clause entry sits at the index its `catch_clause`
returned. -/
theorem Emitter.exceptionTables_recorded (config : Config) (calls : List Call) (steps : List Step)
    (e : Emitter) (hstrict : config.strictOrdering = true)
    (hrun : Emitter.runCalls { config } calls = (steps, some e)) (hok : ∀ s ∈ steps, s.result.isOk) :
    List.Forall₂ (fun entries b => b.code.length < 2 ^ 32 → b.TableFits ∧
        List.Forall₂ EntryRecord.Describes entries b.exceptions ∧ MethodRecord.Replies entries)
      (Emitter.tryLedger { config } calls {}).bodies e.assembler.bodies :=
  (TryLedger.Follows.run calls ⟨hstrict, .nil, .nil⟩ hrun hok).bodies

/-- a method with one try region and one catch-all clause, each returning its value -/
def Call.catchingMethod : List Call :=
  [.startMethod { name := "f" }, .tryBegin false, .pushBool true, .returnValue, .catchClausesBegin,
    .catchClause none none, .returnValue, .catchClausesEnd, .returnVoid, .finishMethod {}]

/-- the catching method, emitted under strict ordering, succeeds at every call and records an
entry, and its table is as recorded -/
theorem Emitter.exceptionTables_recorded_catching :
    ∃ steps e, Emitter.runCalls { config := { strictOrdering := true } } Call.catchingMethod =
        (steps, some e) ∧ (∀ s ∈ steps, s.result.isOk) ∧
      (∃ entries ∈ (Emitter.tryLedger { config := { strictOrdering := true } } Call.catchingMethod
        {}).bodies, entries ≠ []) ∧
      List.Forall₂ (fun entries b => b.code.length < 2 ^ 32 → b.TableFits ∧
          List.Forall₂ EntryRecord.Describes entries b.exceptions ∧ MethodRecord.Replies entries)
        (Emitter.tryLedger { config := { strictOrdering := true } } Call.catchingMethod {}).bodies
        e.assembler.bodies := by
  obtain ⟨steps, e, hrun, hok⟩ :=
    Emitter.runCalls_succeeds { config := { strictOrdering := true } } Call.catchingMethod
      (by decide +kernel)
  have hentry : ∃ entries ∈ (Emitter.tryLedger { config := { strictOrdering := true } }
      Call.catchingMethod {}).bodies, entries ≠ [] := by
    decide +kernel
  exact ⟨steps, e, hrun, hok, hentry,
    Emitter.exceptionTables_recorded { strictOrdering := true } _ _ _ rfl hrun hok⟩

end Emit

end AbcKit

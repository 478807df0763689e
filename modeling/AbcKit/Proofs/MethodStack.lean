import AbcKit.Proofs.Assembly
/-!
Opening and finishing methods.

`start_method` gets the index of the method's name and pushes the new method's state on the stack
of open methods; `finish_method` pops the innermost method, gets the index of its name again,
checks its counts, interns its signature and the traits of its activation, and defines the
method with a body holding its code and exception table, unless it is native or an interface
method (`Emitter.startMethod_ok`, `Emitter.finishMethod_ok`).

The bodies of finished methods are written by `finish_method` alone: every other call that
succeeds leaves them as they were (`Emitter.perform_keepsBodies`).
-/
namespace AbcKit.Emit

/-- the options and the open methods as they were: a step on the module tables alone -/
structure Emitter.OnTables (e e' : Emitter) : Prop where
  config : e'.config = e.config
  methods : e'.methods = e.methods

instance : IsPreorder Emitter Emitter.OnTables where
  refl _ := ⟨rfl, rfl⟩
  trans _ _ _ h h' := ⟨h'.config.trans h.config, h'.methods.trans h.methods⟩

/-- the bodies of the methods finished so far, as they were -/
structure Assembler.SameBodies (a a' : Assembler) : Prop where
  bodies : a'.bodies = a.bodies

instance : IsPreorder Assembler Assembler.SameBodies where
  refl _ := ⟨rfl⟩
  trans _ _ _ h h' := ⟨h'.bodies.trans h.bodies⟩

/-- the options and the bodies of the methods finished so far, as they were -/
structure Emitter.KeepsBodies (e e' : Emitter) : Prop where
  config : e'.config = e.config
  bodies : e'.assembler.bodies = e.assembler.bodies

instance : IsPreorder Emitter Emitter.KeepsBodies where
  refl _ := ⟨rfl, rfl⟩
  trans _ _ _ h h' := ⟨h'.config.trans h.config, h'.bodies.trans h.bodies⟩

/-! ## The steps on the module tables that leave the bodies -/

namespace Assembler

variable {α : Type} {a a' : Assembler}

theorem Interns.sameBodies (h : a.Interns a') : a.SameBodies a' :=
  ⟨by rw [h.tables]⟩

theorem onPool_sameBodies {act : StateM Pool α} : OnSuccess SameBodies (onPool act) := by
  intro a x a' h
  cases h
  exact ⟨rfl⟩

theorem methodIndex_sameBodies (name : String) : OnSuccess SameBodies (methodIndex name) := by
  intro a x a' h
  unfold methodIndex at h
  split at h <;> cases h <;> exact ⟨rfl⟩

theorem classIndex_sameBodies (name : Name) : OnSuccess SameBodies (classIndex name) := by
  intro a x a' h
  cases hname : a.classLookup.get? name with
  | some index =>
    rw [classIndex_of_some hname] at h
    cases h
    exact ⟨rfl⟩
  | none =>
    rw [classIndex_of_none hname] at h
    cases h
    exact ⟨rfl⟩

theorem defineClass_sameBodies (index : UInt32) (inst : Instance) (cls : ClassRecord) :
    OnSuccess SameBodies (defineClass index inst cls) := by
  intro a x a' h
  unfold defineClass at h
  dsimp only at h
  split at h <;> cases h
  exact ⟨rfl⟩

theorem addScript_sameBodies (s : Script) : OnSuccess SameBodies (addScript s) := by
  intro a x a' h
  cases h
  exact ⟨rfl⟩

theorem buildTraits_sameBodies (scope : ObjectDescriptor) :
    OnSuccess SameBodies (buildTraits scope) :=
  (OnSuccess.of_triple (buildTraits_spec scope) fun _ => trivial).mono fun _ _ h => h.sameBodies

end Assembler

theorem OnlyInterns.keepsBodies {α : Type} {act : EmitM α} (h : OnlyInterns act) :
    OnSuccess Emitter.KeepsBodies act :=
  (OnSuccess.of_triple h.triple fun _ => trivial).mono fun _ _ hi =>
    ⟨hi.config, hi.assembler.sameBodies.bodies⟩

namespace Emitter

variable {α : Type} {e e' : Emitter}

theorem onAssembler_ok {act : AssemblerM α} {x : α} (h : onAssembler act e = .ok x e') :
    ∃ a', act e.assembler = .ok x a' ∧ e' = { e with assembler := a' } := by
  unfold onAssembler at h
  split at h
  · next a' h' =>
    cases h
    exact ⟨a', h', rfl⟩
  · cases h

theorem onAssembler_onTables {act : AssemblerM α} : OnSuccess Emitter.OnTables (onAssembler act) := by
  intro e x e' h
  obtain ⟨a', -, rfl⟩ := onAssembler_ok h
  exact ⟨rfl, rfl⟩

theorem onAssembler_keepsBodies {act : AssemblerM α} (h : OnSuccess Assembler.SameBodies act) :
    OnSuccess Emitter.KeepsBodies (onAssembler act) := by
  intro e x e' he
  obtain ⟨a', ha, rfl⟩ := onAssembler_ok he
  exact ⟨rfl, (h _ _ _ ha).bodies⟩

theorem methodSig_onTables (state : MethodState) (f : FinishMethod) :
    OnSuccess Emitter.OnTables (methodSig state f) := by
  unfold methodSig onPool
  repeat' first
    | exact OnSuccess.pure _
    | exact onAssembler_onTables
    | exact OnSuccess.mapM (fun _ => onAssembler_onTables) _
    | apply OnSuccess.mapM
    | apply OnSuccess.bind
    | split
    | (intro _)

/-! ## Successful runs of the checks -/

theorem report_ok {c : Prop} [Decidable c] {msg : String} {k : Unit → EmitM α} {x : α}
    (h : (if c then violationHere msg >>= k else k ()) e = .ok x e') : k () e = .ok x e' := by
  split at h
  · obtain ⟨u, e₁, h₁, h⟩ := EStateM.bind_eq_ok.mp h
    unfold violationHere at h₁
    obtain ⟨e₀, e₂, h₀, h₁⟩ := EStateM.bind_eq_ok.mp h₁
    cases h₀
    split at h₁
    · cases h₁
    · cases h₁
      exact h
  · exact h

theorem refuse_ok {c : Prop} [Decidable c] {err : Halt} {k : PUnit → EmitM α} {x : α}
    (h : (if c then throw err >>= k else k ()) e = .ok x e') : ¬c ∧ k () e = .ok x e' := by
  split at h
  · obtain ⟨u, e₁, h₁, h⟩ := EStateM.bind_eq_ok.mp h
    cases h₁
  · exact ⟨by assumption, h⟩

/-! ## Opening a method -/

/-- **What opening a method does**: it gets the index of the method's name, which it returns,
and pushes the method's fresh state on the open methods. -/
theorem startMethod_ok {s : StartMethod} {i : UInt32} (h : startMethod s e = .ok i e') :
    ∃ m a, MethodState.ofStart s e.config.strictOrdering = .ok m ∧
      Assembler.methodIndex s.name e.assembler = .ok i a ∧
      e' = { e with assembler := a, methods := m :: e.methods, debug := e.debug.enterFunction } := by
  unfold startMethod at h
  obtain ⟨index, e₁, h₁, h⟩ := EStateM.bind_eq_ok.mp h
  obtain ⟨a, hidx, rfl⟩ := onAssembler_ok h₁
  obtain ⟨e₂, e₃, h₂, h⟩ := EStateM.bind_eq_ok.mp h
  cases h₂
  dsimp only at h
  cases hm : MethodState.ofStart s e.config.strictOrdering with
  | error o =>
    rw [hm] at h
    cases h
  | ok m =>
    rw [hm] at h
    obtain ⟨_, e₄, h₄, h⟩ := EStateM.bind_eq_ok.mp h
    cases h₄
    cases h
    exact ⟨m, a, rfl, hidx, rfl⟩

/-! ## Finishing a method -/

/-- the last steps of finishing a method: define it, then leave the function in the debug
records -/
theorem define_ok {index i : UInt32} {sig : MethodSig} {body : Option MethodBody}
    (h : (do
      onAssembler (Assembler.defineMethod index sig body)
      modify fun e : Emitter => { e with debug := e.debug.enterFunction }
      pure index : EmitM UInt32) e = .ok i e') :
    i = index ∧ Assembler.defineMethod index sig body e.assembler = .ok () e'.assembler ∧
      e'.methods = e.methods ∧ e'.config = e.config := by
  obtain ⟨_, e₁, h₁, h⟩ := EStateM.bind_eq_ok.mp h
  obtain ⟨a₁, hdef, rfl⟩ := onAssembler_ok h₁
  obtain ⟨_, e₂, h₂, h⟩ := EStateM.bind_eq_ok.mp h
  cases h₂
  cases h
  exact ⟨rfl, hdef, rfl, rfl⟩

/-- **What finishing a method does**: it pops the innermost method `m`, gets the index of its
name, which it returns, interns the parts of its signature and of its activation's traits, and
defines the method with its body, which holds `m`'s code, exception table and register count
unless the method is native or an interface method. -/
theorem finishMethod_ok {f : FinishMethod} {i : UInt32} (h : finishMethod f e = .ok i e') :
    ∃ m rest, e.methods = m :: rest ∧ e'.methods = rest ∧ e'.config = e.config ∧
      ∃ a₁ a₂ sig body, Assembler.methodIndex m.name e.assembler = .ok i a₁ ∧ a₁.Interns a₂ ∧
        Assembler.defineMethod i sig body a₂ = .ok () e'.assembler ∧
        body.isSome = (!f.isNative && !f.isInterface) ∧
        ∀ b ∈ body, b.method = i ∧ b.code = m.code.toList ∧ b.exceptions = m.exceptions ∧
          b.localCount = m.registers.max.toUInt32 := by
  unfold finishMethod at h
  obtain ⟨e₀, e₁, h₁, h⟩ := EStateM.bind_eq_ok.mp h
  cases h₁
  cases hm : e.methods with
  | nil =>
    rw [hm] at h
    obtain ⟨_, _, h₂, -⟩ := EStateM.bind_eq_ok.mp h
    cases h₂
  | cons m rest =>
  rw [hm] at h
  obtain ⟨_, e₂, h₂, h⟩ := EStateM.bind_eq_ok.mp h
  cases h₂
  obtain ⟨state, e₃, h₃, h⟩ := EStateM.bind_eq_ok.mp h
  cases h₃
  obtain ⟨index, e₄, h₄, h⟩ := EStateM.bind_eq_ok.mp h
  -- the checks on the method's state only report; those on the counts refuse
  dsimp -zeta only at h
  extract_lets -underBinder +onlyGivenNames afterFlow at h
  replace h := report_ok h
  dsimp -zeta only [afterFlow] at h
  extract_lets -underBinder +onlyGivenNames afterStack at h
  replace h := report_ok h
  dsimp -zeta only [afterStack] at h
  extract_lets -underBinder +onlyGivenNames afterTemps at h
  replace h := report_ok h
  dsimp -zeta only [afterTemps] at h
  extract_lets -underBinder +onlyGivenNames afterTypes at h
  have htypes := (refuse_ok h).1
  replace h := (refuse_ok h).2
  dsimp -zeta only [afterTypes] at h
  extract_lets -underBinder +onlyGivenNames afterNames at h
  have hnames := (refuse_ok h).1
  replace h := (refuse_ok h).2
  dsimp -zeta only [afterNames] at h
  -- the check on the defaults is the last step before the signature, so it has no join point
  split at h
  · obtain ⟨_, _, h₀, -⟩ := EStateM.bind_eq_ok.mp h
    cases h₀
  obtain ⟨sig, e₅, h₅, h⟩ := EStateM.bind_eq_ok.mp h
  extract_lets -underBinder +onlyGivenNames withBody at h
  obtain ⟨a₄, hidx, he₄⟩ := onAssembler_ok h₄
  have hi₅ : e₄.Interns e₅ :=
    ((methodSig_spec m f (count_of_check htypes) (count_of_check hnames)).ok_of trivial h₅).1
  have ht₅ : e₄.OnTables e₅ := methodSig_onTables m f _ _ _ h₅
  have hm₄ : e₄.methods = rest := by rw [he₄]
  have hc₄ : e₄.config = e.config := by rw [he₄]
  have ha₄ : e₄.assembler = a₄ := by rw [he₄]
  refine ⟨m, rest, rfl, ?_⟩
  split at h
  · next hbody =>
    obtain ⟨traits, e₆, hi₆, ht₆, h⟩ : ∃ traits e₆, e₅.Interns e₆ ∧ e₅.OnTables e₆ ∧
        withBody traits e₆ = .ok i e' := by
      cases hact : f.activation with
      | some scope =>
        rw [hact] at h
        obtain ⟨traits, e₆, h₆, h⟩ := EStateM.bind_eq_ok.mp h
        exact ⟨traits, e₆, ((onAssembler_interns' (Assembler.buildTraits_spec scope)).ok_of
          trivial h₆).1, onAssembler_onTables _ _ _ h₆, h⟩
      | none =>
        rw [hact] at h
        obtain ⟨traits, e₆, h₆, h⟩ := EStateM.bind_eq_ok.mp h
        cases h₆
        exact ⟨_, _, refl_of _ _, refl_of _ _, h⟩
    dsimp -zeta only [withBody] at h
    obtain ⟨body, e₇, h₇, h⟩ := EStateM.bind_eq_ok.mp h
    cases h₇
    obtain ⟨rfl, hdef, hm', hc'⟩ := define_ok h
    have hi : a₄.Interns e₆.assembler := ha₄ ▸ (trans_of Emitter.Interns hi₅ hi₆).assembler
    refine ⟨by rw [hm', ht₆.methods, ht₅.methods, hm₄], by rw [hc', ht₆.config, ht₅.config, hc₄],
      a₄, e₆.assembler, sig, _, hidx, hi, hdef, by simp [hbody], ?_⟩
    simp
  · next hbody =>
    obtain ⟨body, e₇, h₇, h⟩ := EStateM.bind_eq_ok.mp h
    cases h₇
    obtain ⟨rfl, hdef, hm', hc'⟩ := define_ok h
    refine ⟨by rw [hm', ht₅.methods, hm₄], by rw [hc', ht₅.config, hc₄],
      a₄, e₅.assembler, sig, none, hidx, ha₄ ▸ hi₅.assembler, hdef, by simpa using hbody, ?_⟩
    simp

theorem defineMethod_bodies {index : UInt32} {sig : MethodSig} {body : Option MethodBody}
    {a a' : Assembler} (h : Assembler.defineMethod index sig body a = .ok () a') :
    a'.bodies = a.bodies ++ body.toList := by
  unfold Assembler.defineMethod at h
  split at h <;> cases h
  rfl

/-- **Finishing a method appends its body**, holding its code, exception table and register
count, to the bodies written so far, unless the method is native or an interface method. -/
theorem finishMethod_bodies {f : FinishMethod} {i : UInt32} (h : finishMethod f e = .ok i e') :
    ∃ m rest, e.methods = m :: rest ∧ e'.methods = rest ∧ e'.config = e.config ∧
      ∃ body : Option MethodBody, e'.assembler.bodies = e.assembler.bodies ++ body.toList ∧
        body.isSome = (!f.isNative && !f.isInterface) ∧
        ∀ b ∈ body, b.code = m.code.toList ∧ b.exceptions = m.exceptions ∧
          b.localCount = m.registers.max.toUInt32 := by
  obtain ⟨m, rest, hm, hm', hc', a₁, a₂, sig, body, hidx, hi, hdef, hsome, hbody⟩ :=
    finishMethod_ok h
  refine ⟨m, rest, hm, hm', hc', body, ?_, hsome, fun b hb => (hbody b hb).2⟩
  have h₁ : a₁.bodies = e.assembler.bodies := (Assembler.methodIndex_sameBodies _ _ _ _ hidx).bodies
  rw [defineMethod_bodies hdef, hi.sameBodies.bodies, h₁]

/-! ## The calls that leave the bodies -/

theorem startMethod_keepsBodies (s : StartMethod) : OnSuccess Emitter.KeepsBodies (startMethod s) := by
  intro e i e' h
  obtain ⟨m, a, -, hidx, rfl⟩ := startMethod_ok h
  exact ⟨rfl, (Assembler.methodIndex_sameBodies _ _ _ _ hidx).bodies⟩

theorem finishClass_keepsBodies (d : ClassDefinition) :
    OnSuccess Emitter.KeepsBodies (finishClass d) := by
  unfold finishClass onPool
  repeat' first
    | exact OnSuccess.pure _
    | exact onAssembler_keepsBodies Assembler.onPool_sameBodies
    | exact onAssembler_keepsBodies (Assembler.classIndex_sameBodies _)
    | exact onAssembler_keepsBodies (Assembler.buildTraits_sameBodies _)
    | exact onAssembler_keepsBodies (Assembler.defineClass_sameBodies _ _ _)
    | exact OnSuccess.mapM (fun _ => onAssembler_keepsBodies Assembler.onPool_sameBodies) _
    | apply OnSuccess.map
    | apply OnSuccess.bind
    | split
    | (intro _)

/-- **Only finishing a method writes a body**: every other call that succeeds leaves the bodies
and the options as they were. -/
theorem perform_keepsBodies (c : Call) (hc : ∀ f, c ≠ .finishMethod f) :
    OnSuccess Emitter.KeepsBodies (Emitter.perform c) := by
  cases hd : c.definesRecords
  · exact (perform_interns c hd).keepsBodies
  cases c with
  | startMethod s => exact (startMethod_keepsBodies s).bind fun _ => OnSuccess.pure _
  | finishMethod f => exact absurd rfl (hc f)
  | startClass n =>
    exact (onAssembler_keepsBodies (Assembler.classIndex_sameBodies n)).bind fun _ =>
      OnSuccess.pure _
  | finishClass d => exact (finishClass_keepsBodies d).bind fun _ => OnSuccess.pure _
  | finishProgram init traits =>
    exact ((onAssembler_keepsBodies (Assembler.buildTraits_sameBodies traits)).bind fun _ =>
      onAssembler_keepsBodies (Assembler.addScript_sameBodies _)).map
  | methodIndex n =>
    exact (onAssembler_keepsBodies (Assembler.methodIndex_sameBodies n)).bind fun _ =>
      OnSuccess.pure _
  | _ => simp [Call.definesRecords] at hd

end Emitter

end AbcKit.Emit

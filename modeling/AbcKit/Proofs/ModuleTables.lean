import AbcKit.Proofs.AssemblerTables
import AbcKit.Proofs.MethodNames
import AbcKit.Proofs.MethodStack
/-!
The module tables under every order of calls made through the emitter.

A body belongs to the method whose index it carries: the bodies' indices are distinct, and each
names a defined method (`Assembler.Owned`). Every call builds the tables, failed calls included:
they grow as `Assembler.Grows` says, and owned bodies stay owned (`Emitter.perform_builds`,
`Emitter.finishMethod_pops`).

The open methods are the methods started and not yet finished, innermost first, and each was
started under the index of its name (`Emitter.TablesFollow`). Finishing a method pops the
innermost one and defines it under that index, so a finished method's index is the one its start
returned, and no index is finished twice (`Emitter.TablesFollow.run`).
-/
namespace AbcKit.Emit

/-! ## Bodies owned by their methods -/

namespace Assembler

variable {α : Type} {a a' : Assembler}

/-- Each body belongs to a defined method, and no method has two: the bodies' method indices are
distinct, and each names a method whose record is filled. -/
structure Owned (a : Assembler) : Prop where
  distinct : (a.bodies.map MethodBody.method).Nodup
  defined : ∀ b ∈ a.bodies, ∃ sig, a.methods[b.method.toNat]? = some (some sig)

theorem Owned.empty : Assembler.empty.Owned :=
  ⟨.nil, fun _ h => nomatch h⟩

theorem Owned.of_grows (h : a.Owned) (hg : a.Grows a') (hb : a'.bodies = a.bodies) : a'.Owned where
  distinct := hb ▸ h.distinct
  defined b hb' := by
    obtain ⟨sig, hsig⟩ := h.defined b (hb ▸ hb')
    exact ⟨sig, hg.methods _ sig hsig⟩

/-- What a step does to the tables: they grow, and owned bodies stay owned. -/
structure Builds (a a' : Assembler) : Prop where
  grows : a.Grows a'
  owned : a.Owned → a'.Owned

instance : IsPreorder Assembler Builds where
  refl a := ⟨refl_of Grows a, id⟩
  trans _ _ _ h h' := ⟨trans_of Grows h.grows h'.grows, h'.owned ∘ h.owned⟩

theorem Interns.builds (h : a.Interns a') : a.Builds a' :=
  ⟨h.grows, fun ho => ho.of_grows h.grows h.sameBodies.bodies⟩

/-- a step that grows the tables and, whether it succeeds or fails, leaves the bodies builds
them -/
theorem builds_of_grows {P : Assembler → Prop} {Q : α → Assembler → Prop} {act : AssemblerM α}
    (h : Triple Grows P act Q) (hb : ∀ a, (endState (act a)).bodies = a.bodies) :
    Triple Builds P act Q := fun a ha =>
  let ⟨hg, hq⟩ := h a ha
  ⟨⟨hg, fun ho => ho.of_grows hg (hb a)⟩, hq⟩

theorem methodIndex_builds (name : String) :
    Triple Builds (fun _ => True) (methodIndex name) fun i a => a.MethodAt name i :=
  builds_of_grows (methodIndex_grows name) fun a => by
    unfold methodIndex
    split <;> rfl

theorem classIndex_builds (name : Name) :
    Triple Builds (fun _ => True) (classIndex name) fun i a => a.ClassAt name i :=
  builds_of_grows (classIndex_grows name) fun a => by
    cases h : a.classLookup.get? name with
    | some index => rw [classIndex_of_some h]; rfl
    | none => rw [classIndex_of_none h]; rfl

theorem defineClass_builds (index : UInt32) (inst : Instance) (cls : ClassRecord) :
    Triple Builds (fun _ => True) (defineClass index inst cls) fun _ _ => True :=
  builds_of_grows ((defineClass_grows index inst cls).consequence (fun _ h => h)
    fun _ _ _ => trivial) fun a => by
    unfold defineClass
    dsimp only
    split <;> rfl

theorem addScript_builds (s : Script) :
    Triple Builds (fun _ => True) (addScript s) fun _ _ => True :=
  builds_of_grows (addScript_grows s) fun _ => rfl

theorem buildTraits_builds (scope : ObjectDescriptor) :
    Triple Builds (fun _ => True) (buildTraits scope) fun _ _ => True :=
  ((buildTraits_spec scope).weaken fun _ _ h => h.builds).consequence (fun _ h => h)
    fun _ _ _ => trivial

theorem addMetadata_builds (name : String) (items : List (Option String × String)) :
    Triple Builds (fun _ => True) (addMetadata name items) fun i a => a.MetadataAt name items i :=
  builds_of_grows (addMetadata_grows name items) fun a =>
    (addMetadata_onlyInterns name items a trivial).1.sameBodies.bodies

theorem defineMethod_ok_empty {index : UInt32} {sig : MethodSig} {body : Option MethodBody}
    (h : defineMethod index sig body a = .ok () a') : a.methods[index.toNat]? = some none := by
  unfold defineMethod at h
  split at h
  · cases h
  · cases h
  · assumption

/-- Defining a method with a body that carries its index keeps the bodies owned: the method's
record was empty, so no body had its index yet. -/
theorem defineMethod_builds (index : UInt32) (sig : MethodSig) (body : Option MethodBody)
    (hb : ∀ b ∈ body, b.method = index) :
    Triple Builds (fun _ => True) (defineMethod index sig body)
      fun _ a => a.methods[index.toNat]? = some (some sig) := by
  intro a _
  obtain ⟨hg, hq⟩ := defineMethod_grows index sig body a trivial
  refine ⟨⟨hg, fun ho => ?_⟩, hq⟩
  cases hdef : defineMethod index sig body a with
  | error err a₁ =>
    obtain rfl : a₁ = a := by
      unfold defineMethod at hdef
      split at hdef <;> cases hdef <;> rfl
    exact ho
  | ok u a₁ =>
    have hempty := defineMethod_ok_empty hdef
    have hsig := hq u a₁ hdef
    rw [hdef] at hg
    simp only [endState_ok] at hg ⊢
    have hbodies := Emitter.defineMethod_bodies hdef
    -- the old bodies name defined methods, so none is the one just defined
    have hold : ∀ b ∈ a.bodies, b.method ≠ index := by
      intro b hb' heq
      obtain ⟨sig', hsig'⟩ := ho.defined b hb'
      rw [heq, hempty] at hsig'
      cases hsig'
    refine ⟨?_, fun b hb' => ?_⟩
    · rw [hbodies, List.map_append]
      refine List.nodup_append.mpr ⟨ho.distinct, ?_, ?_⟩
      · cases body <;> simp
      · intro x hx y hy hxy
        obtain ⟨b, hb', rfl⟩ := List.mem_map.mp hx
        obtain ⟨b', hb'', rfl⟩ := List.mem_map.mp hy
        exact hold b hb' (hxy.trans (hb b' (Option.mem_toList.mp hb'')))
    · rw [hbodies] at hb'
      rcases List.mem_append.mp hb' with hb' | hb'
      · obtain ⟨sig', hsig'⟩ := ho.defined b hb'
        exact ⟨sig', hg.methods _ _ hsig'⟩
      · rw [hb b (Option.mem_toList.mp hb')]
        exact ⟨sig, hsig⟩

/-! ### Runs of calls made directly on the tables -/

/-- a definition's body, when there is one, carries the index it is defined under -/
def Op.Carries : Op → Prop
  | .defineMethod index _ body => ∀ b ∈ body, b.method = index
  | _ => True

theorem Op.run_builds (op : Op) (h : op.Carries) :
    Triple Builds (fun _ => True) op.run fun _ _ => True := by
  cases op with
  | methodIndex n =>
    exact (methodIndex_builds n).bind fun _ => Triple.pure fun _ _ => trivial
  | defineMethod index sig body =>
    exact ((defineMethod_builds index sig body h).consequence (fun _ _ => trivial)
      fun _ _ _ => trivial).bind fun _ => Triple.pure fun _ _ => trivial
  | classIndex n => exact (classIndex_builds n).bind fun _ => Triple.pure fun _ _ => trivial
  | defineClass index inst cls =>
    exact ((defineClass_builds index inst cls).consequence (fun _ _ => trivial)
      fun _ _ _ => trivial).bind fun _ => Triple.pure fun _ _ => trivial
  | addScript s =>
    exact ((addScript_builds s).consequence (fun _ _ => trivial) fun _ _ h => h).bind
      fun _ => Triple.pure fun _ _ => trivial
  | addMetadata n items =>
    exact ((addMetadata_builds n items).consequence (fun _ _ => trivial)
      fun _ _ _ => trivial).bind fun _ => Triple.pure fun _ _ => trivial
  | buildTraits scope =>
    exact (((buildTraits_builds scope).consequence (fun _ _ => trivial) fun _ _ h => h).discard
      (Q := fun _ _ => True)).bind fun _ => Triple.pure fun _ _ => trivial

theorem Op.step_snd (op : Op) (a : Assembler) : (op.step a).2 = endState (op.run a) := by
  unfold Op.step
  split <;> rename_i heq <;> rw [heq] <;> rfl

/-- **Calls whose bodies carry their indices keep the bodies owned.** -/
theorem runOps_owned : ∀ (ops : List Op) (a : Assembler), (∀ op ∈ ops, op.Carries) →
    a.Owned → (runOps a ops).2.Owned
  | [], _, _, ho => ho
  | op :: ops, a, hc, ho => by
    have hb : a.Builds (op.step a).2 := by
      rw [Op.step_snd]
      exact (op.run_builds (hc op List.mem_cons_self) a trivial).1
    exact runOps_owned ops (op.step a).2 (fun op' h => hc op' (List.mem_cons_of_mem op h))
      (hb.owned ho)

end Assembler

/-! ## Calls on the emitter build the tables -/

/-- a step of the emitter builds its module tables -/
def Emitter.Builds (e e' : Emitter) : Prop := e.assembler.Builds e'.assembler

instance : IsPreorder Emitter Emitter.Builds where
  refl e := refl_of Assembler.Builds e.assembler
  trans _ _ _ h h' := trans_of Assembler.Builds h h'

/-- a step that builds the tables whether it succeeds or fails -/
def BuildsTables {α : Type} (act : EmitM α) : Prop :=
  Triple Emitter.Builds (fun _ => True) act fun _ _ => True

namespace BuildsTables

variable {α β : Type}

theorem pure (x : α) : BuildsTables (Pure.pure x : EmitM α) := Triple.pure fun _ _ => trivial

theorem bind {x : EmitM α} {f : α → EmitM β} (hx : BuildsTables x) (hf : ∀ a, BuildsTables (f a)) :
    BuildsTables (x >>= f) := Triple.bind hx hf

theorem map {x : EmitM α} {f : α → β} (hx : BuildsTables x) : BuildsTables (f <$> x) :=
  (Triple.map hx).consequence (fun _ h => h) fun _ _ _ => trivial

theorem mapM {f : α → EmitM β} (hf : ∀ x, BuildsTables (f x)) :
    ∀ l : List α, BuildsTables (l.mapM f)
  | [] => pure _
  | x :: l => by
    rw [List.mapM_cons]
    exact (hf x).bind fun _ => (mapM hf l).bind fun _ => pure _

end BuildsTables

theorem OnlyInterns.buildsTables {α : Type} {act : EmitM α} (h : OnlyInterns act) :
    BuildsTables act :=
  h.triple.weaken fun _ _ hi => hi.assembler.builds

/-- a step that builds the tables and leaves the names of the open methods -/
structure Emitter.BuildsInPlace (e e' : Emitter) : Prop where
  builds : e.Builds e'
  names : e.SameNames e'

instance : IsPreorder Emitter Emitter.BuildsInPlace where
  refl e := ⟨refl_of Emitter.Builds e, refl_of Emitter.SameNames e⟩
  trans _ _ _ h h' :=
    ⟨trans_of Emitter.Builds h.builds h'.builds, trans_of Emitter.SameNames h.names h'.names⟩

namespace Emitter

variable {α : Type} {e e' : Emitter}

theorem onAssembler_builds {act : AssemblerM α} {P : Assembler → Prop}
    {Q : α → Assembler → Prop} (h : Triple Assembler.Builds P act Q) :
    Triple Emitter.Builds (fun e => P e.assembler) (onAssembler act) fun x e => Q x e.assembler :=
  onAssembler_lift (fun _ _ h => h) h

theorem onAssembler_buildsTables {act : AssemblerM α}
    (h : Triple Assembler.Builds (fun _ => True) act fun _ _ => True) :
    BuildsTables (onAssembler act) :=
  onAssembler_builds h

/-- a step that builds the tables and keeps the names of the open methods does both at once -/
theorem inPlace {act : EmitM α} {P : Emitter → Prop} {Q : α → Emitter → Prop}
    (h : Triple Emitter.Builds P act Q) (hn : KeepsNames act) :
    Triple Emitter.BuildsInPlace P act Q := fun e he =>
  ⟨⟨(h e he).1, (hn e trivial).1⟩, (h e he).2⟩

/-- opening a method appends its name to the tables when it is new; its index is the name's -/
theorem startMethod_builds (s : StartMethod) :
    Triple Emitter.Builds (fun _ => True) (startMethod s)
      fun i e => e.assembler.MethodAt s.name i := by
  unfold startMethod
  refine (onAssembler_builds (Assembler.methodIndex_builds s.name)).bind fun i => ?_
  refine Triple.get.bind fun e => ?_
  split
  · exact Triple.throw
  · exact (Triple.modify fun e h => ⟨refl_of Assembler.Builds e.assembler, h.2⟩).bind fun _ =>
      Triple.pure fun _ h => h

/-- a reported violation, when the emitter goes on, is followed by the rest of the call -/
theorem report_inPlace {c : Prop} [Decidable c] {msg : String} {k : Unit → EmitM α}
    {Q : α → Emitter → Prop} (hk : ∀ u, Triple Emitter.BuildsInPlace (fun _ => True) (k u) Q) :
    Triple Emitter.BuildsInPlace (fun _ => True)
      (if c then violationHere msg >>= k else k ()) Q := by
  split
  · exact (inPlace (violationHere_interns msg).buildsTables (violationHere_keepsNames msg)).bind hk
  · exact hk ()

open MethodM in
theorem methodSig_keepsNames (state : MethodState) (f : FinishMethod) :
    KeepsNames (methodSig state f) := by
  unfold methodSig
  repeat' with_reducible first
    | exact KeepsNames.pure _
    | exact onAssembler_keepsNames
    | exact onPool_keepsNames
    | apply KeepsNames.mapM
    | apply KeepsNames.bind
    | (intro _)
    | split

/-- **Finishing a method pops the innermost one and builds the tables**, whether it succeeds or
fails: the names of the open methods lose their first, and the body written carries the index the
method is defined under, whose record was empty. -/
theorem finishMethod_pops (f : FinishMethod) (e : Emitter) :
    e.Builds (endState (finishMethod f e)) ∧
      (endState (finishMethod f e)).methods.map MethodState.name =
        (e.methods.map MethodState.name).tail := by
  unfold finishMethod
  extract_lets +onlyGivenNames afterPop
  -- after the pop, every step builds the tables and keeps the other methods
  have hrest : ∀ state, Triple Emitter.BuildsInPlace (fun _ => True)
      (afterPop state) fun _ _ => True := by
    intro state
    dsimp -zeta only [afterPop]
    refine ((inPlace (onAssembler_builds (Assembler.methodIndex_builds state.name))
      onAssembler_keepsNames).consequence (fun _ h => h) fun _ _ _ => trivial).bind
        fun index => ?_
    extract_lets -underBinder +onlyGivenNames afterFlow
    refine report_inPlace fun _ => ?_
    dsimp -zeta only [afterFlow]
    extract_lets -underBinder +onlyGivenNames afterStack
    refine report_inPlace fun _ => ?_
    dsimp -zeta only [afterStack]
    extract_lets -underBinder +onlyGivenNames afterTemps
    refine report_inPlace fun _ => ?_
    dsimp -zeta only [afterTemps]
    extract_lets -underBinder +onlyGivenNames params declares afterTypes
    refine Triple.throw_or fun htypes => ?_
    dsimp -zeta only [afterTypes]
    extract_lets -underBinder +onlyGivenNames afterNames
    refine Triple.throw_or fun hnames => ?_
    dsimp -zeta only [afterNames]
    extract_lets -underBinder +onlyGivenNames afterOptional
    refine Triple.throw_or fun _ => ?_
    dsimp -zeta only [afterOptional]
    refine ((inPlace ((methodSig_spec state f (count_of_check htypes)
      (count_of_check hnames)).weaken fun _ _ hi => hi.assembler.builds)
        (methodSig_keepsNames state f)).consequence (fun _ h => h) fun _ _ _ => trivial).bind
          fun sig => ?_
    extract_lets -underBinder +onlyGivenNames withBody
    -- the body, when there is one, carries the method's index
    suffices hbody : ∀ body : Option MethodBody, Triple Emitter.BuildsInPlace
        (fun _ => ∀ b ∈ body, b.method = index) (withBody body) fun _ _ => True by
      split
      · extract_lets -underBinder +onlyGivenNames withTraits
        suffices htraits : ∀ traits : List Trait, Triple Emitter.BuildsInPlace (fun _ => True)
            (withTraits traits) fun _ _ => True by
          split
          · exact (inPlace (onAssembler_builds (Assembler.buildTraits_builds _))
              onAssembler_keepsNames).bind htraits
          · exact (Triple.pure fun _ _ => trivial).bind htraits
        intro traits
        dsimp -zeta only [withTraits]
        exact (Triple.pure fun _ _ => by simp).bind hbody
      · exact (Triple.pure fun _ _ => by simp).bind hbody
    intro body
    dsimp -zeta only [withBody]
    refine Triple.of_const fun hb => ?_
    refine (inPlace (onAssembler_builds (Assembler.defineMethod_builds index sig body hb))
      onAssembler_keepsNames).bind fun _ => ?_
    exact (Triple.modify (Q := fun _ _ => True) fun e _ =>
      ⟨⟨refl_of Assembler.Builds e.assembler, rfl⟩, trivial⟩).bind fun _ => Triple.pure fun _ _ => trivial
  cases hm : e.methods with
  | nil =>
    simp only [bind, EStateM.bind, get, getThe, MonadStateOf.get, EStateM.get, hm, throw,
      throwThe, MonadExceptOf.throw, EStateM.throw, endState_error, List.map_nil, List.tail_nil]
    exact ⟨refl_of Emitter.Builds e, trivial⟩
  | cons m rest =>
    obtain ⟨⟨hb, hn⟩, -⟩ := hrest m { e with methods := rest } trivial
    simp only [bind, EStateM.bind, get, getThe, MonadStateOf.get, EStateM.get, hm, modify,
      modifyGet, MonadStateOf.modifyGet, EStateM.modifyGet, pure, EStateM.pure]
    exact ⟨hb, hn⟩

theorem ofStart_name {s : StartMethod} {strict : Bool} {m : MethodState}
    (h : MethodState.ofStart s strict = .ok m) : m.name = s.name := by
  unfold MethodState.ofStart at h
  cases hb : s.firstFreeRegister with
  | error o => simp [hb, bind, Except.bind] at h
  | ok base =>
    simp only [hb, bind, Except.bind, pure, Except.pure, Except.ok.injEq] at h
    rw [← h]

theorem startMethod_error {s : StartMethod} {err : Halt} (h : startMethod s e = .error err e') :
    e'.methods = e.methods := by
  unfold startMethod at h
  obtain ⟨i, a, hidx⟩ : ∃ i a, Assembler.methodIndex s.name e.assembler = .ok i a := by
    unfold Assembler.methodIndex
    split <;> exact ⟨_, _, rfl⟩
  simp only [bind, EStateM.bind, onAssembler, hidx, get, getThe, MonadStateOf.get,
    EStateM.get] at h
  cases hm : MethodState.ofStart s e.config.strictOrdering with
  | error o =>
    simp only [hm, throw, throwThe, MonadExceptOf.throw, EStateM.throw,
      EStateM.Result.error.injEq] at h
    rw [← h.2]
  | ok m =>
    simp [hm, EStateM.bind, modify, modifyGet, MonadStateOf.modifyGet, EStateM.modifyGet, pure,
      EStateM.pure] at h

theorem finishClass_builds (d : ClassDefinition) :
    Triple Emitter.Builds (fun _ => True) (finishClass d) fun _ _ => True := by
  unfold finishClass
  refine ((onAssembler_builds (Assembler.classIndex_builds d.name)).consequence (fun _ h => h)
    fun _ _ _ => trivial).bind fun index => ?_
  show BuildsTables _
  repeat' with_reducible first
    | exact BuildsTables.pure _
    | exact (onPool_interns (Pool.name_grows _)).buildsTables
    | exact (onPool_interns (Pool.ns_grows _)).buildsTables
    | exact onAssembler_buildsTables (Assembler.buildTraits_builds _)
    | exact onAssembler_buildsTables (Assembler.defineClass_builds _ _ _)
    | apply BuildsTables.mapM
    | apply BuildsTables.map
    | apply BuildsTables.bind
    | (intro _)
    | split

theorem finishProgram_builds (init : UInt32) (traits : ObjectDescriptor) :
    BuildsTables (finishProgram init traits) :=
  (onAssembler_buildsTables (Assembler.buildTraits_builds traits)).bind fun _ =>
    onAssembler_buildsTables (Assembler.addScript_builds _)

end Emitter

/-! ## What a call's reply says of the tables -/

/-- what a successful call's reply says of tables: an index asked for by name is the name's
position, a finished method's index is defined, and a metadata record's index is the position of
the record that spells it -/
def Call.Answers (a : Assembler) : Call → Reply → Prop
  | .startMethod s, r => ∃ i : UInt32, r = .number i.toNat ∧ a.MethodAt s.name i
  | .methodIndex n, r => ∃ i : UInt32, r = .number i.toNat ∧ a.MethodAt n i
  | .finishMethod _, r => ∃ (i : UInt32) (sig : MethodSig), r = .number i.toNat ∧
      a.methods[i.toNat]? = some (some sig)
  | .startClass n, r => ∃ i : UInt32, r = .number i.toNat ∧ a.ClassAt n i
  | .addMetadata n items, r => ∃ i : UInt32, r = .number i.toNat ∧ a.MetadataAt n items i
  | _, _ => True

theorem Call.Answers.mono {a a' : Assembler} {c : Call} {r : Reply} (h : c.Answers a r)
    (hg : a.Grows a') : c.Answers a' r := by
  cases c with
  | startMethod s =>
    obtain ⟨i, hr, hi⟩ := h
    exact ⟨i, hr, hi.mono hg⟩
  | methodIndex n =>
    obtain ⟨i, hr, hi⟩ := h
    exact ⟨i, hr, hi.mono hg⟩
  | finishMethod f =>
    obtain ⟨i, sig, hr, hi⟩ := h
    exact ⟨i, sig, hr, hg.methods _ _ hi⟩
  | startClass n =>
    obtain ⟨i, hr, hi⟩ := h
    exact ⟨i, hr, hi.mono hg⟩
  | addMetadata n items =>
    obtain ⟨i, hr, hi⟩ := h
    exact ⟨i, hr, hi.mono hg⟩
  | _ => trivial

/-- a step followed by a pure reply succeeds and fails as the step does -/
theorem EStateM.bind_pure_eq {ε σ α β : Type} (x : EStateM ε σ α) (g : α → β) (s : σ) :
    (x >>= fun a => pure (g a)) s = match x s with
      | .ok a s' => .ok (g a) s'
      | .error err s' => .error err s' := by
  show EStateM.bind x _ s = _
  unfold EStateM.bind
  cases x s <;> rfl

theorem EStateM.bind_pure_ok {ε σ α β : Type} {x : EStateM ε σ α} {g : α → β} {s s' : σ} {b : β}
    (h : (x >>= fun a => pure (g a)) s = .ok b s') : ∃ a, x s = .ok a s' ∧ b = g a := by
  rw [EStateM.bind_pure_eq] at h
  split at h
  · next a s₁ hx =>
    cases h
    exact ⟨a, hx, rfl⟩
  · cases h

theorem EStateM.bind_pure_error {ε σ α β : Type} {x : EStateM ε σ α} {g : α → β} {s s' : σ}
    {err : ε} (h : (x >>= fun a => pure (g a)) s = .error err s') : x s = .error err s' := by
  rw [EStateM.bind_pure_eq] at h
  split at h
  · cases h
  · next err' s₁ hx =>
    cases h
    exact hx

namespace Emitter

variable {e e' : Emitter}

/-- **Every call but finishing a method builds the tables**, whether it succeeds or fails, and
what it replies answers for itself. -/
theorem perform_builds (c : Call) (hf : ∀ f, c ≠ .finishMethod f) :
    Triple Emitter.Builds (fun _ => True) (perform c)
      fun r e => c.Answers e.assembler r := by
  cases c with
  | startMethod s => exact (startMethod_builds s).bind fun i => Triple.pure fun _ h => ⟨i, rfl, h⟩
  | finishMethod f => exact absurd rfl (hf f)
  | startClass n =>
    exact (onAssembler_builds (Assembler.classIndex_builds n)).bind fun i =>
      Triple.pure fun _ h => ⟨i, rfl, h⟩
  | finishClass d => exact (finishClass_builds d).bind fun _ => Triple.pure fun _ _ => trivial
  | finishProgram init traits =>
    exact Triple.consequence (BuildsTables.map (finishProgram_builds init traits))
      (fun _ _ => trivial) fun _ _ _ => trivial
  | addMetadata n items =>
    exact ((onAssembler_builds (Assembler.addMetadata_builds n items)).consequence
      (fun _ _ => trivial) fun _ _ h => h).bind fun i => Triple.pure fun _ h => ⟨i, rfl, h⟩
  | methodIndex n =>
    exact (onAssembler_builds (Assembler.methodIndex_builds n)).bind fun i =>
      Triple.pure fun _ h => ⟨i, rfl, h⟩
  | _ =>
    -- every other call only interns, and its reply says nothing of the tables
    exact Triple.consequence (perform_interns _ rfl).buildsTables (fun _ _ => trivial)
      fun _ _ _ => trivial

end Emitter

/-! ## Runs of calls on the emitter -/

/-- the replies of the starts still open after a call: opening a method pushes its reply, and
finishing one pops the innermost, whether it succeeds or fails -/
def Call.opens (L : List Reply) : Call → Except Halt Reply → List Reply
  | .startMethod _, .ok r => r :: L
  | .finishMethod _, _ => L.tail
  | _, _ => L

/-- the reply of a call that finished a method -/
def Call.finished : Call → Except Halt Reply → Option Reply
  | .finishMethod _, .ok r => some r
  | _, _ => none

/-- the replies of the calls of a run that finished a method, in order -/
def finishedBy (calls : List Call) (steps : List Step) : List Reply :=
  (calls.zip steps).filterMap fun p => p.1.finished p.2.result

/-- Along a run's calls and steps, from the replies `L` of the starts open before it, innermost
first: each method finished is finished under the reply of the innermost open start. -/
def FinishesAsStarted : List Reply → List Call → List Step → Prop
  | L, c :: calls, s :: steps =>
    (∀ r, c.finished s.result = some r → L.head? = some r) ∧
      FinishesAsStarted (c.opens L s.result) calls steps
  | _, _, _ => True

theorem Call.finished_error (c : Call) (err : Halt) : c.finished (.error err) = none := by
  cases c <;> rfl

theorem Call.finished_other {c : Call} (hf : ∀ f, c ≠ .finishMethod f)
    (res : Except Halt Reply) : c.finished res = none := by
  cases c <;> first | rfl | exact absurd rfl (hf _)

theorem Call.opens_other {c : Call} (hs : ∀ s, c ≠ .startMethod s)
    (hf : ∀ f, c ≠ .finishMethod f) (L : List Reply) (res : Except Halt Reply) :
    c.opens L res = L := by
  cases c <;> first | rfl | exact absurd rfl (hs _) | exact absurd rfl (hf _)

theorem finishedBy_cons (c : Call) (calls : List Call) (s : Step) (steps : List Step) :
    finishedBy (c :: calls) (s :: steps) = (c.finished s.result).toList ++ finishedBy calls steps := by
  simp only [finishedBy, List.zip_cons_cons, List.filterMap_cons]
  cases c.finished s.result <;> rfl

/-- the replies `L` are, one for one, the indices of the method names `ns` -/
def Assembler.IndicesOf (a : Assembler) (L : List Reply) (ns : List String) : Prop :=
  List.Forall₂ (fun r n => ∃ i : UInt32, r = .number i.toNat ∧ a.MethodAt n i) L ns

theorem Assembler.IndicesOf.mono {a a' : Assembler} {L : List Reply} {ns : List String}
    (h : a.IndicesOf L ns) (hg : a.Grows a') : a'.IndicesOf L ns :=
  List.Forall₂.imp (fun _ _ ⟨i, hr, hi⟩ => ⟨i, hr, hi.mono hg⟩) h

theorem Assembler.IndicesOf.tail {a : Assembler} {L : List Reply} {ns : List String}
    (h : a.IndicesOf L ns) : a.IndicesOf L.tail ns.tail := by
  have hs := List.forall₂_drop 1 h
  rwa [List.drop_one, List.drop_one] at hs

/-- The invariant of a run: the tables own their bodies, and the replies of the open starts,
innermost first, are the indices of the open methods' names. -/
structure Emitter.TablesFollow (L : List Reply) (e : Emitter) : Prop where
  owned : e.assembler.Owned
  starts : e.assembler.IndicesOf L (e.methods.map MethodState.name)

namespace Emitter.TablesFollow

variable {L : List Reply} {e e' : Emitter} {c : Call}

theorem keep (h : e.TablesFollow L) (hb : e.Builds e') (hn : e.SameNames e') :
    e'.TablesFollow L where
  owned := hb.owned h.owned
  starts := by
    rw [hn]
    exact h.starts.mono hb.grows

/-- the invariant holds after finishing a method, with the innermost open start popped -/
theorem pop (h : e.TablesFollow L) (hb : e.Builds e')
    (hn : e'.methods.map MethodState.name = (e.methods.map MethodState.name).tail) :
    e'.TablesFollow L.tail where
  owned := hb.owned h.owned
  starts := by
    rw [hn]
    exact (h.starts.mono hb.grows).tail

theorem startMethod_ok (h : e.TablesFollow L) {s : StartMethod} {i : UInt32}
    (hsm : startMethod s e = .ok i e') (hb : e.Builds e') (hat : e'.assembler.MethodAt s.name i) :
    e'.TablesFollow (.number i.toNat :: L) := by
  obtain ⟨m, a, hm, -, rfl⟩ := Emitter.startMethod_ok hsm
  refine ⟨hb.owned h.owned, ?_⟩
  show Assembler.IndicesOf _ (_ :: L) ((m :: e.methods).map MethodState.name)
  rw [List.map_cons, ofStart_name hm]
  exact .cons ⟨i, rfl, hat⟩ (h.starts.mono hb.grows)

/-- **Finishing a method that succeeds** pops the innermost open start, whose reply is the index
it finishes under; that index was not defined before, and is defined now. -/
theorem finishMethod_ok (h : e.TablesFollow L) {f : FinishMethod} {i : UInt32}
    (hfm : finishMethod f e = .ok i e') :
    e.Builds e' ∧ e'.TablesFollow L.tail ∧ L.head? = some (.number i.toNat) ∧
      (∃ sig, e'.assembler.methods[i.toNat]? = some (some sig)) ∧
      ∀ sig, e.assembler.methods[i.toNat]? ≠ some (some sig) := by
  obtain ⟨hb, hn⟩ := finishMethod_pops f e
  rw [hfm] at hb hn
  obtain ⟨m, rest, hm, -, -, a₁, a₂, sig, body, hidx, hi, hdef, -, -⟩ := Emitter.finishMethod_ok hfm
  -- the popped method was opened under the index its name has now
  obtain ⟨hb₁, hat⟩ := (Assembler.methodIndex_builds m.name).ok_of trivial hidx
  have hstart := h.starts
  rw [hm, List.map_cons] at hstart
  obtain ⟨r₀, L', ⟨i₀, rfl, hat₀⟩, -, rfl⟩ := List.forall₂_cons_right_iff.mp hstart
  have hi₀ : i₀ = i := (hat₀.mono hb₁.grows).unique hat
  subst hi₀
  refine ⟨hb, h.pop hb hn, rfl, ⟨sig, ((Assembler.defineMethod_grows i₀ sig body).ok_of
    trivial hdef).2⟩, fun sig' hsig' => ?_⟩
  -- the record was empty when the method was defined, and records only fill
  have hg : e.assembler.Grows a₂ := trans_of Assembler.Grows hb₁.grows hi.grows
  have hfull := hg.methods _ _ hsig'
  rw [Assembler.defineMethod_ok_empty hdef] at hfull
  cases hfull

/-- a call that neither opens nor finishes a method keeps the invariant, whether it succeeds or
fails -/
theorem perform_other (h : e.TablesFollow L) (hs : ∀ s, c ≠ .startMethod s)
    (hf : ∀ f, c ≠ .finishMethod f) :
    e.Builds (endState (Emitter.perform c e)) ∧ (endState (Emitter.perform c e)).TablesFollow L :=
  have hb := ((perform_builds c hf) e trivial).1
  ⟨hb, h.keep hb ((perform_keepsNames c hs hf) e trivial).1⟩

/-- **One call that succeeds**: it builds the tables, its reply answers for itself, and a method it
finishes is the innermost open one, finished under its start's reply, at an index not defined
before. -/
theorem step_ok (h : e.TablesFollow L) {r : Reply} (hp : Emitter.perform c e = .ok r e') :
    e.Builds e' ∧ e'.TablesFollow (c.opens L (.ok r)) ∧ c.Answers e'.assembler r ∧
      ∀ r', c.finished (.ok r) = some r' → L.head? = some r' ∧ ∃ i : UInt32,
        r' = .number i.toNat ∧ (∀ sig, e.assembler.methods[i.toNat]? ≠ some (some sig)) ∧
          ∃ sig, e'.assembler.methods[i.toNat]? = some (some sig) := by
  by_cases hfin : ∃ f, c = .finishMethod f
  · obtain ⟨f, rfl⟩ := hfin
    obtain ⟨i, hfm, rfl⟩ := EStateM.bind_pure_ok hp
    obtain ⟨hb, h', hhead, ⟨sig, hsig⟩, hfresh⟩ := h.finishMethod_ok hfm
    refine ⟨hb, h', ⟨i, sig, rfl, hsig⟩, fun r' hr' => ?_⟩
    cases hr'
    exact ⟨hhead, i, rfl, hfresh, sig, hsig⟩
  have hf : ∀ f, c ≠ .finishMethod f := fun f hc => hfin ⟨f, hc⟩
  obtain ⟨hb, hans⟩ := (perform_builds c hf).ok_of trivial hp
  refine ⟨hb, ?_, hans, fun r' hr' => by rw [Call.finished_other hf] at hr'; cases hr'⟩
  by_cases hstart : ∃ s, c = .startMethod s
  · obtain ⟨s, rfl⟩ := hstart
    obtain ⟨i, hsm, rfl⟩ := EStateM.bind_pure_ok hp
    obtain ⟨i', hi', hat⟩ := hans
    rw [UInt32.toNat_inj.mp (Reply.number.inj hi')] at hsm ⊢
    exact h.startMethod_ok hsm hb hat
  · have hs : ∀ s, c ≠ .startMethod s := fun s hc => hstart ⟨s, hc⟩
    have hother := h.perform_other hs hf
    rw [hp] at hother
    rw [Call.opens_other hs hf]
    exact hother.2

/-- **One call that fails**: it builds the tables all the same, and keeps the invariant with the
open starts it leaves. -/
theorem step_error (h : e.TablesFollow L) {err : Halt} (hp : Emitter.perform c e = .error err e') :
    e.Builds e' ∧ e'.TablesFollow (c.opens L (.error err)) := by
  by_cases hfin : ∃ f, c = .finishMethod f
  · obtain ⟨f, rfl⟩ := hfin
    have hfm := EStateM.bind_pure_error hp
    obtain ⟨hb, hn⟩ := finishMethod_pops f e
    rw [hfm] at hb hn
    exact ⟨hb, h.pop hb hn⟩
  have hf : ∀ f, c ≠ .finishMethod f := fun f hc => hfin ⟨f, hc⟩
  by_cases hstart : ∃ s, c = .startMethod s
  · obtain ⟨s, rfl⟩ := hstart
    have hsm := EStateM.bind_pure_error hp
    have hb := ((perform_builds _ hf) e trivial).1
    rw [hp] at hb
    exact ⟨hb, h.keep hb (by rw [Emitter.SameNames, startMethod_error hsm])⟩
  · have hs : ∀ s, c ≠ .startMethod s := fun s hc => hstart ⟨s, hc⟩
    have hother := h.perform_other hs hf
    rw [hp] at hother
    rw [Call.opens_other hs hf]
    exact hother

end Emitter.TablesFollow

/-- What a run of `calls` with steps `steps` from `e`, where the starts `L` are open, leaves in the
tables `a` it reaches: they are built from `e`'s and own their bodies; each reply
answers for itself; each method finished is finished under its start's reply; and no index is
finished twice, nor was defined in `e`. -/
structure RunBuilds (e : Emitter) (L : List Reply) (calls : List Call) (steps : List Step)
    (a : Assembler) : Prop where
  builds : e.assembler.Builds a
  owned : a.Owned
  answers : ∀ c s, (c, s) ∈ calls.zip steps → ∀ r, s.result = .ok r → c.Answers a r
  finishes : FinishesAsStarted L calls steps
  once : (finishedBy calls steps).Nodup
  fresh : ∀ r ∈ finishedBy calls steps, ∃ i : UInt32, r = .number i.toNat ∧
    ∀ sig, e.assembler.methods[i.toNat]? ≠ some (some sig)

namespace RunBuilds

variable {e e₁ : Emitter} {L : List Reply} {c : Call} {calls : List Call} {s : Step}
  {steps : List Step} {a : Assembler}

theorem nil (ho : e.assembler.Owned) :
    RunBuilds e L calls [] e.assembler where
  builds := refl_of Assembler.Builds e.assembler
  owned := ho
  answers _ _ h := by simp at h
  finishes := by cases calls <;> trivial
  once := by simp [finishedBy]
  fresh _ h := by simp [finishedBy] at h

/-- A step from `e` to `e₁` that builds the tables, followed by a run from `e₁`. The step's reply
answers for itself in `e₁`; a method it finishes is the innermost open one, at an index not
defined in `e` and defined in `e₁`. -/
theorem cons (hb : e.Builds e₁) (hans : ∀ r, s.result = .ok r → c.Answers e₁.assembler r)
    (hfin : ∀ r, c.finished s.result = some r → L.head? = some r ∧ ∃ i : UInt32,
      r = .number i.toNat ∧ (∀ sig, e.assembler.methods[i.toNat]? ≠ some (some sig)) ∧
        ∃ sig, e₁.assembler.methods[i.toNat]? = some (some sig))
    (hrest : RunBuilds e₁ (c.opens L s.result) calls steps a) :
    RunBuilds e L (c :: calls) (s :: steps) a where
  builds := trans_of Assembler.Builds hb hrest.builds
  owned := hrest.owned
  answers c' s' hmem r hr := by
    rcases List.mem_cons.mp (List.zip_cons_cons ▸ hmem) with heq | hmem
    · cases heq
      exact (hans r hr).mono hrest.builds.grows
    · exact hrest.answers c' s' hmem r hr
  finishes := ⟨fun r hr => (hfin r hr).1, hrest.finishes⟩
  once := by
    rw [finishedBy_cons]
    cases hc : c.finished s.result with
    | none => exact hrest.once
    | some r =>
      -- the index just finished is defined where the rest of the run starts
      obtain ⟨-, i, rfl, -, sig, hsig⟩ := hfin r hc
      refine List.nodup_cons.mpr ⟨fun hr => ?_, hrest.once⟩
      obtain ⟨j, hj, hundef⟩ := hrest.fresh _ hr
      have hij : i = j := UInt32.toNat_inj.mp (Reply.number.inj hj)
      exact hundef sig (hij ▸ hsig)
  fresh r hr := by
    rw [finishedBy_cons] at hr
    rcases List.mem_append.mp hr with hr | hr
    · obtain ⟨i, hi, hundef, -⟩ := (hfin r (Option.mem_toList.mp hr)).2
      exact ⟨i, hi, hundef⟩
    · obtain ⟨j, hj, hundef⟩ := hrest.fresh r hr
      exact ⟨j, hj, fun sig hsig => hundef sig (hb.grows.methods _ _ hsig)⟩

/-- a step that aborts the run: nothing after it is performed, and the run's tables are those
before it -/
theorem abort (ho : e.assembler.Owned) (msg : String) :
    RunBuilds e L (c :: calls) [⟨.error (.abort msg), none⟩] e.assembler :=
  cons (refl_of Emitter.Builds e) (fun _ h => nomatch h)
    (fun r h => by rw [Call.finished_error] at h; cases h) (nil ho)

end RunBuilds

namespace Emitter.TablesFollow

/-- **Every run keeps the bodies owned**, and each of its replies answers
for itself in the tables it reaches; each method it finishes is the innermost open one, finished
under its start's reply; and no index is finished twice. -/
theorem run : ∀ (calls : List Call) (L : List Reply) (e : Emitter), e.TablesFollow L →
    ∃ a : Assembler, (∀ e' ∈ (Emitter.runCalls e calls).2, e'.assembler = a) ∧
      RunBuilds e L calls (Emitter.runCalls e calls).1 a
  | [], L, e, h => ⟨e.assembler, fun e' he' => by cases he'; rfl, RunBuilds.nil h.owned⟩
  | c :: rest, L, e, h => by
    cases hp : Emitter.perform c e with
    | ok r e₁ =>
      obtain ⟨hb, h₁, hans, hfin⟩ := h.step_ok hp
      obtain ⟨a, hfinal, hrun⟩ := run rest _ e₁ h₁
      rw [Emitter.runCalls_ok hp]
      exact ⟨a, hfinal, RunBuilds.cons hb (fun r' hr => by cases hr; exact hans) hfin hrun⟩
    | error err e₁ =>
      cases err with
      | error err =>
        obtain ⟨hb, h₁⟩ := h.step_error hp
        obtain ⟨a, hfinal, hrun⟩ := run rest _ e₁ h₁
        rw [Emitter.runCalls_reported hp]
        exact ⟨a, hfinal, RunBuilds.cons hb (fun _ hr => nomatch hr)
          (fun r hr => by rw [Call.finished_error] at hr; cases hr) hrun⟩
      | abort msg =>
        rw [Emitter.runCalls_aborted hp]
        exact ⟨e.assembler, fun _ he' => by simp at he', RunBuilds.abort h.owned msg⟩

end Emitter.TablesFollow

/-- **The module tables stay coherent under every order of calls.**

All tables are coherent: each method and class has its name, each name once, at the position its
map gives it; the three class tables move in lock step, so their lock-step check never fails; and
each metadata record is there once, at the position its map gives it.

Calls made directly on empty tables answer, each successful one, for its reply in the tables the
calls end with; no method is defined twice; and when each definition's body carries its index,
each body belongs to a distinct defined method.

Calls made through a fresh emitter reach tables that own their bodies, whether the run ends or
aborts. Each successful call answers for its reply there; each method finished is the innermost
open one, finished under the index its start returned; and no index is finished twice.

An index asked for by name is the name's position, equal for two names exactly when the names
are, while there are at most 2^32 records; so is a metadata record's, for equal names, keys and
values, while the pool holds fewer than 2^32 strings. Defining a method or a class is refused
with an internal error, every table as it was, exactly when the record does not exist or is
defined already. -/
theorem moduleTables_coherent :
    (∀ a : Assembler, a.Coherent) ∧
    (∀ ops : List Assembler.Op,
      List.Forall₂ (fun op r => ∀ x, r = .ok x → op.Answers (Assembler.runOps .empty ops).2 x)
        ops (Assembler.runOps .empty ops).1 ∧
      (Assembler.definedBy ops (Assembler.runOps .empty ops).1).Nodup ∧
      ((∀ op ∈ ops, op.Carries) → (Assembler.runOps .empty ops).2.Owned)) ∧
    (∀ (config : Config) (calls : List Call), ∃ a : Assembler,
      (∀ e ∈ (Emitter.runCalls { config } calls).2, e.assembler = a) ∧ a.Owned ∧
      (∀ c s, (c, s) ∈ calls.zip (Emitter.runCalls { config } calls).1 → ∀ r, s.result = .ok r →
        c.Answers a r) ∧
      FinishesAsStarted [] calls (Emitter.runCalls { config } calls).1 ∧
      (finishedBy calls (Emitter.runCalls { config } calls).1).Nodup) ∧
    (∀ (a : Assembler) (n n' : String) (i i' : UInt32), a.methods.length ≤ 2 ^ 32 →
      a.MethodAt n i → a.MethodAt n' i' → (i = i' ↔ n = n')) ∧
    (∀ (a : Assembler) (n n' : Name) (i i' : UInt32), a.classes.length ≤ 2 ^ 32 →
      a.ClassAt n i → a.ClassAt n' i' → (i = i' ↔ n = n')) ∧
    (∀ (a : Assembler) (name name' : String) (items items' : List (Option String × String))
      (i i' : UInt32), a.pool.strings.size < 2 ^ 32 → a.metadata.length ≤ 2 ^ 32 →
        a.MetadataAt name items i → a.MetadataAt name' items' i' →
          (i = i' ↔ name = name' ∧ items = items')) ∧
    (∀ (a : Assembler) (index : UInt32) (sig : MethodSig) (body : Option MethodBody),
      (∃ msg, Assembler.defineMethod index sig body a = .error (.internal msg) a) ↔
        a.methods[index.toNat]? ≠ some none) ∧
    (∀ (a : Assembler) (index : UInt32) (inst : Instance) (cls : ClassRecord),
      (∃ msg, Assembler.defineClass index inst cls a = .error (.internal msg) a) ↔
        a.classDefined[index.toNat]? ≠ some false) := by
  refine ⟨Assembler.coherent, fun ops => ?_, fun config calls => ?_,
    fun _ _ _ _ _ hm h h' => h.eq_iff hm h', fun _ _ _ _ _ hc h h' => h.eq_iff hc h',
    fun _ _ _ _ _ _ _ hs hm h h' => h.eq_iff hs hm h', Assembler.defineMethod_refused,
    Assembler.defineClass_refused⟩
  · obtain ⟨-, hans, hnodup, -⟩ := Assembler.runOps_grows ops .empty
    exact ⟨hans, hnodup, fun hc => Assembler.runOps_owned ops .empty hc Assembler.Owned.empty⟩
  · -- a fresh emitter has empty tables and no open method
    obtain ⟨a, hfinal, hrun⟩ := Emitter.TablesFollow.run calls [] { config }
      ⟨Assembler.Owned.empty, .nil⟩
    exact ⟨a, hfinal, hrun.owned, hrun.answers, hrun.finishes, hrun.once⟩

/-- calls on the tables: a method named and defined with a body that carries its index, a second
method named, a class named twice, and a metadata record -/
def Assembler.sampleOps : List Assembler.Op :=
  [.methodIndex "main", .defineMethod 0 {} (some {}), .methodIndex "helper",
    .classIndex (.qname .public "Main" false), .classIndex (.qname .public "Main" false),
    .addMetadata "Meta" [(some "key", "value")]]

/-- the sample calls carry their indices, so the tables they build own their bodies; and the two
methods they name are at positions 0 and 1, told apart as their names are -/
theorem moduleTables_coherent_sample :
    (∀ op ∈ Assembler.sampleOps, op.Carries) ∧
      (Assembler.runOps .empty Assembler.sampleOps).2.Owned ∧
      (Assembler.runOps .empty Assembler.sampleOps).2.methods.length ≤ 2 ^ 32 ∧
      (Assembler.runOps .empty Assembler.sampleOps).2.MethodAt "main" 0 ∧
      (Assembler.runOps .empty Assembler.sampleOps).2.MethodAt "helper" 1 ∧
      ((0 : UInt32) = 1 ↔ "main" = "helper") := by
  have hc : ∀ op ∈ Assembler.sampleOps, op.Carries := by
    simp [Assembler.sampleOps, Assembler.Op.Carries]
  have hm : (Assembler.runOps .empty Assembler.sampleOps).2.methods.length ≤ 2 ^ 32 := by
    decide +kernel
  have hmain : (Assembler.runOps .empty Assembler.sampleOps).2.MethodAt "main" 0 :=
    ⟨0, by decide +kernel, rfl⟩
  have hhelper : (Assembler.runOps .empty Assembler.sampleOps).2.MethodAt "helper" 1 :=
    ⟨1, by decide +kernel, rfl⟩
  exact ⟨hc, (moduleTables_coherent.2.1 _).2.2 hc, hm, hmain, hhelper,
    moduleTables_coherent.2.2.2.1 _ _ _ _ _ hm hmain hhelper⟩

end AbcKit.Emit

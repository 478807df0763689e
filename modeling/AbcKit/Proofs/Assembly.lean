import AbcKit.Proofs.Tables
/-!
The emitter's module reads back as itself.

Every call keeps the module tables sound (`Emitter.perform_keeps`), failed calls included, given
that the method indices it supplies are methods; so every run does (`Emitter.runCalls_keeps`),
when each supplied index was returned by an earlier call.

Main result: `Emitter.finish_readsBack`: a module the emitter finishes, whose counts and indices
fit their fields and whose class and script initializers are method indices the emitter handed
out, is written and read back as itself, up to the flags the format derives.
-/
namespace AbcKit

namespace Emit

/-! ### The calls that write records -/

theorem OnlyInterns.keep {α : Type} {act : EmitM α} (h : OnlyInterns act) {F : Emitter → Prop}
    (hF : ∀ e e', F e → e.Keeps e' → F e') : Triple Emitter.Keeps F act fun _ e => F e :=
  (h.keeps.frame hF).consequence (fun _ h => ⟨trivial, h⟩) fun _ _ h => h.2

namespace Emitter

theorem onAssembler_lift {α : Type} {R : Assembler → Assembler → Prop}
    {R' : Emitter → Emitter → Prop} {act : AssemblerM α} {P : Assembler → Prop}
    {Q : α → Assembler → Prop} (hR : ∀ (e : Emitter) a, R e.assembler a → R' e { e with assembler := a })
    (h : Triple R P act Q) :
    Triple R' (fun e => P e.assembler) (onAssembler act) fun x e => Q x e.assembler := by
  intro e he
  obtain ⟨hr, hq⟩ := h e.assembler he
  unfold onAssembler
  split <;> rename_i heq <;> rw [heq] at hr
  · exact ⟨hR e _ hr, fun x e' h => by cases h; exact hq _ _ heq⟩
  · exact ⟨hR e _ hr, fun _ _ h => by cases h⟩

theorem onAssembler_keeps {α : Type} {act : AssemblerM α} {P : Assembler → Prop}
    {Q : α → Assembler → Prop} (h : Triple Assembler.Keeps P act Q) :
    Triple Emitter.Keeps (fun e => P e.assembler) (onAssembler act) fun x e => Q x e.assembler :=
  onAssembler_lift (fun _ _ h => ⟨rfl, h⟩) h

theorem onAssembler_interns' {α : Type} {act : AssemblerM α} {P : Assembler → Prop}
    {Q : α → Assembler → Prop} (h : Triple Assembler.Interns P act Q) :
    Triple Emitter.Interns (fun e => P e.assembler) (onAssembler act) fun x e => Q x e.assembler :=
  onAssembler_lift (fun _ _ h => ⟨rfl, h⟩) h

theorem startMethod_spec (s : StartMethod) :
    Triple Emitter.Keeps (fun e => e.assembler.Sound) (startMethod s)
      fun i e => i.toNat < e.assembler.methods.length ∧ e.assembler.Sound := by
  unfold startMethod
  refine (onAssembler_keeps (Assembler.methodIndex_spec s.name)).bind fun i => ?_
  refine Triple.get.bind fun e => ?_
  split
  · exact Triple.throw
  · exact (Triple.modify fun e h => ⟨⟨rfl, refl_of _ _⟩, h.2⟩).bind fun _ =>
      Triple.pure fun _ h => h

theorem string_le (str : String) :
    Triple Emitter.Interns (fun _ => True) (onPool (Pool.string str))
      fun i e => i.toNat ≤ e.assembler.pool.strings.size := by
  unfold onPool
  exact onAssembler_interns' (Assembler.onPool_spec (Q := fun i p => i.toNat ≤ p.strings.size)
    (Pool.string_grows str) fun p => (Pool.string_isIndex str p).toNat_le)

theorem string_le_stable {n : Nat} (e e' : Emitter) (h : n ≤ e.assembler.pool.strings.size)
    (hi : e.Interns e') : n ≤ e'.assembler.pool.strings.size :=
  Nat.le_trans h hi.assembler.pool.strings.size_le

/-- the signature of a method whose counts were checked: its names, if any, are one per
parameter type, and its name is a string of the pool -/
theorem methodSig_spec (state : MethodState) (f : FinishMethod)
    (htypes : f.paramTypes = [] ∨ f.paramTypes.length = state.paramCount.toNat)
    (hnames : f.paramNames = [] ∨ f.paramNames.length = state.paramCount.toNat) :
    Triple Emitter.Interns (fun _ => True) (methodSig state f)
      fun sig e => sig.Regular ∧ sig.name.toNat ≤ e.assembler.pool.strings.size := by
  unfold methodSig
  extract_lets -underBinder +onlyGivenNames withTypes
  -- one parameter type per parameter, whether the types are listed or not
  suffices hrest : ∀ paramTypes : List UInt32, paramTypes.length = state.paramCount.toNat →
      Triple Emitter.Interns (fun _ => True) (withTypes paramTypes)
        fun sig e => sig.Regular ∧ sig.name.toNat ≤ e.assembler.pool.strings.size by
    split
    · exact (Triple.pure fun _ _ => List.length_replicate).bind fun ts =>
        Triple.of_const fun h => hrest ts h
    · next hne =>
      refine ((Triple.mapM (I := fun _ => True) (Q := fun _ _ => True) (fun _ _ _ _ _ => trivial)
        (fun t => ?_) _).consequence (fun _ h => h) fun ts _ h => ?_).bind fun ts =>
          Triple.of_const fun h => hrest ts h
      · split
        · exact (onPool_interns (Pool.name_grows _)).triple.consequence (fun _ h => h)
            fun _ _ _ => ⟨trivial, trivial⟩
        · exact Triple.pure fun _ _ => ⟨trivial, trivial⟩
      · show ts.length = state.paramCount.toNat
        rw [h.1]
        exact htypes.resolve_left (by simpa using hne)
  intro paramTypes hparams
  dsimp -zeta only [withTypes]
  extract_lets -underBinder +onlyGivenNames withReturn
  suffices hrest : ∀ returnType : UInt32, Triple Emitter.Interns (fun _ => True)
      (withReturn returnType)
        fun sig e => sig.Regular ∧ sig.name.toNat ≤ e.assembler.pool.strings.size by
    split
    · exact (onPool_interns (Pool.name_grows _)).triple.bind hrest
    · exact (Triple.pure fun _ _ => trivial).bind hrest
  intro returnType
  dsimp -zeta only [withReturn]
  extract_lets -underBinder +onlyGivenNames withName
  suffices hrest : ∀ name : UInt32, Triple Emitter.Interns
      (fun e => name.toNat ≤ e.assembler.pool.strings.size) (withName name)
        fun sig e => sig.Regular ∧ sig.name.toNat ≤ e.assembler.pool.strings.size by
    split
    · exact (string_le _).bind hrest
    · exact (Triple.pure (Q := fun (n : UInt32) e => n.toNat ≤ e.assembler.pool.strings.size)
        fun _ _ => Nat.zero_le _).bind hrest
  intro name
  dsimp -zeta only [withName]
  refine Triple.bind (Triple.mapM (I := fun (e : Emitter) => name.toNat ≤ e.assembler.pool.strings.size)
    (Q := fun _ _ => True) (fun _ _ _ _ _ => trivial) (fun n => ?_) f.paramNames)
    fun paramNames => ?_
  · exact ((onPool_interns (Pool.string_grows n)).triple.frame string_le_stable).consequence
      (fun _ h => ⟨trivial, h⟩) fun _ _ h => h
  refine Triple.bind (((Triple.mapM (I := fun _ => True) (Q := fun _ _ => True)
    (fun _ _ _ _ _ => trivial) (fun init => ?_) f.optional).frame
      (F := fun (e : Emitter) => paramNames.length = f.paramNames.length ∧
        name.toNat ≤ e.assembler.pool.strings.size)
      fun _ _ h hi => ⟨h.1, string_le_stable _ _ h.2 hi⟩).consequence
        (fun _ h => ⟨trivial, h.1, h.2.2⟩) fun _ _ h => h.2) fun optional => ?_
  · exact (onAssembler_onlyInterns (Assembler.parameterDefault_onlyInterns init)).triple.consequence
      (fun _ h => h) fun _ _ _ => ⟨trivial, trivial⟩
  refine Triple.pure fun e ⟨hlen, hname⟩ => ⟨?_, hname⟩
  -- the names the reader takes are one per parameter, or none
  rcases hnames with hnil | hcount
  · left
    rw [hnil, List.length_nil, List.length_eq_zero_iff] at hlen
    exact hlen
  · right
    show paramNames.length = paramTypes.length
    rw [hlen, hcount, hparams]

/-- a reported violation, when the emitter goes on, is followed by the rest of the call -/
theorem report_then {α : Type} {c : Prop} [Decidable c] {F : Emitter → Prop}
    {Q : α → Emitter → Prop} {msg : String} {k : Unit → EmitM α}
    (hF : ∀ e e', F e → e.Keeps e' → F e') (hk : ∀ u, Triple Emitter.Keeps F (k u) Q) :
    Triple Emitter.Keeps F (if c then violationHere msg >>= k else k ()) Q := by
  split
  · exact ((violationHere_interns msg).keep hF).bind hk
  · exact hk ()

theorem count_of_check {α : Type} {l : List α} {n : Nat}
    (h : ¬(!l.isEmpty && decide (l.length ≠ n)) = true) : l = [] ∨ l.length = n := by
  cases l <;> simp_all

/-- the index of a method, while the tables are sound -/
def Placed (i : UInt32) (e : Emitter) : Prop :=
  i.toNat < e.assembler.methods.length ∧ e.assembler.Sound

theorem Placed.stable {i : UInt32} (e e' : Emitter) (h : Placed i e) (hk : e.Keeps e') :
    Placed i e' :=
  ⟨hk.method_lt h.1, hk.assembler.sound h.2⟩

theorem finishMethod_spec (f : FinishMethod) :
    Triple Emitter.Keeps (fun e => e.assembler.Sound) (finishMethod f) Placed := by
  unfold finishMethod
  refine Triple.get.bind fun e => ?_
  extract_lets -underBinder +onlyGivenNames afterPop
  suffices hrest : ∀ state, Triple Emitter.Keeps (fun e => e.assembler.Sound) (afterPop state)
      Placed by
    split
    · exact (Triple.modify fun e h => ⟨⟨rfl, refl_of _ _⟩, h.2⟩).bind fun _ =>
        (Triple.pure fun _ h => h).bind hrest
    · exact Triple.throw.bind (M := fun _ _ => False) fun _ _ h => h.elim
  intro state
  dsimp -zeta only [afterPop]
  refine (onAssembler_keeps (Assembler.methodIndex_spec state.name)).bind fun index => ?_
  extract_lets -underBinder +onlyGivenNames afterFlow
  refine report_then Placed.stable fun _ => ?_
  dsimp -zeta only [afterFlow]
  extract_lets -underBinder +onlyGivenNames afterStack
  refine report_then Placed.stable fun _ => ?_
  dsimp -zeta only [afterStack]
  extract_lets -underBinder +onlyGivenNames afterTemps
  refine report_then Placed.stable fun _ => ?_
  dsimp -zeta only [afterTemps]
  extract_lets -underBinder +onlyGivenNames params declares afterTypes
  refine Triple.throw_or fun htypes => ?_
  dsimp -zeta only [afterTypes]
  extract_lets -underBinder +onlyGivenNames afterNames
  refine Triple.throw_or fun hnames => ?_
  dsimp -zeta only [afterNames]
  extract_lets -underBinder +onlyGivenNames afterOptional
  refine Triple.throw_or fun _ => ?_
  dsimp -zeta only [afterOptional]
  -- the counts passed, so the signature is regular
  refine ((((methodSig_spec state f (count_of_check htypes) (count_of_check hnames)).weaken
    fun _ _ hi => ⟨hi.config, hi.assembler.keeps⟩).frame Placed.stable).consequence
      (fun _ h => ⟨trivial, h⟩) fun _ _ h => h).bind fun sig => ?_
  extract_lets -underBinder +onlyGivenNames withBody
  suffices hbody : ∀ body : Option MethodBody, Triple Emitter.Keeps
      (fun e => (e.assembler.Sound ∧
        (sig.Regular ∧ sig.name.toNat ≤ e.assembler.pool.strings.size) ∧
        ∀ b ∈ body.toList, b.method.toNat < e.assembler.methods.length ∧
          ∀ t ∈ b.traits, t.Plain e.assembler.pool) ∧ index.toNat < e.assembler.methods.length)
      (withBody body) Placed by
    split
    · extract_lets -underBinder +onlyGivenNames withTraits
      suffices htraits : ∀ traits : List Trait, Triple Emitter.Keeps
          (fun e => ((sig.Regular ∧ sig.name.toNat ≤ e.assembler.pool.strings.size) ∧
            Placed index e) ∧ ∀ t ∈ traits, t.Plain e.assembler.pool)
          (withTraits traits) Placed by
        split
        · exact (((onAssembler_keeps (Assembler.keeps_of_interns (Assembler.buildTraits_spec _))).frame
            fun _ _ h hk => ⟨⟨h.1.1, hk.string_le h.1.2⟩, Placed.stable _ _ h.2 hk⟩).consequence
              (fun _ h => ⟨⟨trivial, h.2.2⟩, h⟩) fun _ _ h => ⟨h.2, h.1.1⟩).bind htraits
        · exact (Triple.pure fun _ h => ⟨h, by simp⟩).bind htraits
      intro traits
      dsimp -zeta only [withTraits]
      refine (Triple.pure fun e ⟨⟨hsig, hidx⟩, hts⟩ => ⟨⟨hidx.2, hsig, ?_⟩, hidx.1⟩).bind hbody
      simp only [Option.toList_some, List.mem_singleton, forall_eq]
      exact ⟨hidx.1, hts⟩
    · exact (Triple.pure fun e ⟨hsig, hidx⟩ => ⟨⟨hidx.2, hsig, by simp⟩, hidx.1⟩).bind hbody
  intro body
  dsimp -zeta only [withBody]
  refine (((onAssembler_keeps (Assembler.defineMethod_spec index sig body)).frame
    fun _ _ h hk => hk.method_lt h).bind fun _ => ?_)
  exact (Triple.modify (Q := fun _ e => Placed index e) fun _ h => ⟨⟨rfl, refl_of _ _⟩, h.2, h.1⟩).bind
    fun _ => Triple.pure fun _ h => h

/-- both initializers of a class definition are methods, while the tables are sound -/
def Initialized (d : ClassDefinition) (e : Emitter) : Prop :=
  e.assembler.Sound ∧ d.iinit.toNat < e.assembler.methods.length ∧
    d.cinit.toNat < e.assembler.methods.length

theorem Initialized.stable {d : ClassDefinition} (e e' : Emitter) (h : Initialized d e)
    (hk : e.Keeps e') : Initialized d e' :=
  ⟨hk.assembler.sound h.1, hk.method_lt h.2.1, hk.method_lt h.2.2⟩

theorem finishClass_spec (d : ClassDefinition) :
    Triple Emitter.Keeps (Initialized d) (finishClass d) fun _ e => e.assembler.Sound := by
  unfold finishClass
  refine ((onAssembler_keeps (Assembler.classIndex_spec d.name)).frame
    (F := fun e => d.iinit.toNat < e.assembler.methods.length ∧
      d.cinit.toNat < e.assembler.methods.length)
    (fun _ _ h hk => ⟨hk.method_lt h.1, hk.method_lt h.2⟩)).bind fun index => ?_
  refine ((onPool_interns (Pool.name_grows d.name)).keep Initialized.stable).bind fun name => ?_
  extract_lets -underBinder +onlyGivenNames withSuper
  suffices hrest : ∀ superName, Triple Emitter.Keeps (Initialized d) (withSuper superName)
      fun _ e => e.assembler.Sound by
    split
    · exact ((onPool_interns (Pool.name_grows _)).keep Initialized.stable).bind hrest
    · exact (Triple.pure fun _ h => h).bind hrest
  intro superName
  dsimp -zeta only [withSuper]
  refine ((Triple.mapM (I := Initialized d) (Q := fun _ _ => True) (fun _ _ _ _ _ => trivial)
    (fun i => ((onPool_interns (Pool.name_grows i)).keep Initialized.stable).consequence
      (fun _ h => h) fun _ _ h => ⟨trivial, h⟩) d.interfaces).consequence (fun _ h => h)
        fun _ _ h => h.2.2).bind fun interfaces => ?_
  extract_lets -underBinder +onlyGivenNames withNs
  suffices hrest : ∀ protectedNs, Triple Emitter.Keeps (Initialized d) (withNs protectedNs)
      fun _ e => e.assembler.Sound by
    split
    · exact ((onPool_interns (Pool.ns_grows _)).map.keep Initialized.stable).bind hrest
    · exact (Triple.pure fun _ h => h).bind hrest
  intro protectedNs
  dsimp -zeta only [withNs]
  extract_lets -underBinder +onlyGivenNames flags
  -- the instance's traits are plain when built, and stay so while the static ones are built
  refine (((onAssembler_keeps (Assembler.keeps_of_interns (Assembler.buildTraits_spec _))).frame
    (F := fun e => d.iinit.toNat < e.assembler.methods.length ∧
      d.cinit.toNat < e.assembler.methods.length)
    (fun _ _ h hk => ⟨hk.method_lt h.1, hk.method_lt h.2⟩)).consequence
      (fun _ h => ⟨⟨trivial, h.1⟩, h.2⟩) fun _ _ h => h).bind fun traits => ?_
  extract_lets -underBinder +onlyGivenNames inst
  refine (((onAssembler_keeps (Assembler.keeps_of_interns (Assembler.buildTraits_spec _))).frame
    (F := fun e => (∀ t ∈ traits, t.Plain e.assembler.pool) ∧
      d.iinit.toNat < e.assembler.methods.length ∧ d.cinit.toNat < e.assembler.methods.length)
    (fun _ _ h hk => ⟨hk.plain h.1, hk.method_lt h.2.1, hk.method_lt h.2.2⟩)).consequence
      (fun _ h => ⟨⟨trivial, h.1.2⟩, h.1.1, h.2⟩) fun _ _ h => h).bind fun statics => ?_
  refine (onAssembler_keeps (Assembler.defineClass_spec index inst ⟨d.cinit, statics⟩)).consequence
    (fun _ h => ⟨h.1.2, ⟨h.2.2.1, h.2.1⟩, h.2.2.2, h.1.1⟩) (fun _ _ h => h) |>.bind fun _ =>
      Triple.pure fun _ h => h

theorem finishProgram_spec (init : UInt32) (traits : ObjectDescriptor) :
    Triple Emitter.Keeps
      (fun e => e.assembler.Sound ∧ init.toNat < e.assembler.methods.length)
      (finishProgram init traits) fun _ e => e.assembler.Sound := by
  unfold finishProgram
  refine (((onAssembler_keeps (Assembler.keeps_of_interns (Assembler.buildTraits_spec traits))).frame
    (F := fun e => init.toNat < e.assembler.methods.length)
    (fun _ _ h hk => hk.method_lt h)).consequence (fun _ h => ⟨⟨trivial, h.1⟩, h.2⟩)
      fun _ _ h => h).bind fun ts => ?_
  exact (onAssembler_keeps (Assembler.addScript_spec ⟨init, ts⟩)).consequence
    (fun _ h => ⟨h.1.2, h.2, h.1.1⟩) fun _ _ h => h

end Emitter

/-! ### One call, and a run of calls -/

/-- the method indices a call supplies: a class's two initializers, a script's one -/
def Call.suppliedMethods : Call → List UInt32
  | .finishClass d => [d.iinit, d.cinit]
  | .finishProgram init _ => [init]
  | _ => []

/-- whether a call answers with the index of a method it names -/
def Call.returnsMethod : Call → Bool
  | .startMethod _ | .methodIndex _ => true
  | _ => false

theorem Call.definesRecords_of_returnsMethod {c : Call} (h : c.returnsMethod = true) :
    c.definesRecords = true := by
  cases c <;> simp_all [Call.returnsMethod, Call.definesRecords]

/-- **One call keeps the module tables sound**, given that the method indices it supplies are
methods; a call that answers with a method index answers with a method's. -/
theorem Emitter.perform_keeps (c : Call) :
    Triple Emitter.Keeps
      (fun e => e.assembler.Sound ∧ ∀ i ∈ c.suppliedMethods, i.toNat < e.assembler.methods.length)
      (Emitter.perform c) fun r e =>
        c.returnsMethod = true → ∀ n, r = .number n → n < e.assembler.methods.length := by
  cases hc : c.definesRecords
  · -- every other call only interns, and answers with no method index
    refine ((Emitter.perform_interns c hc).keeps).consequence (fun _ _ => trivial)
      fun _ _ _ hr => absurd (Call.definesRecords_of_returnsMethod hr) (by simp [hc])
  open Emitter in
  cases c with
  | startMethod s =>
    exact ((startMethod_spec s).consequence (fun _ h => h.1) fun _ _ h => h).bind fun i =>
      Triple.pure fun _ h _ n hn => by
        cases hn
        exact h.1
  | methodIndex name =>
    exact (onAssembler_keeps (Assembler.methodIndex_spec name)).consequence (fun _ h => h.1)
      (fun _ _ h => h) |>.bind fun i => Triple.pure fun _ h _ n hn => by
        cases hn
        exact h.1
  | finishMethod f =>
    exact ((finishMethod_spec f).consequence (fun _ h => h.1) fun _ _ _ => trivial).bind fun _ =>
      Triple.pure fun _ _ h => absurd h (by simp [Call.returnsMethod])
  | startClass name =>
    exact ((onAssembler_keeps (Assembler.classIndex_spec name)).consequence (fun _ h => h.1)
      fun _ _ _ => trivial).bind fun _ =>
        Triple.pure fun _ _ h => absurd h (by simp [Call.returnsMethod])
  | finishClass d =>
    refine ((finishClass_spec d).consequence (fun _ h => ⟨h.1, ?_, ?_⟩)
      fun _ _ _ => trivial).bind fun _ =>
        Triple.pure fun _ _ h => absurd h (by simp [Call.returnsMethod])
    · exact h.2 d.iinit (by simp [Call.suppliedMethods])
    · exact h.2 d.cinit (by simp [Call.suppliedMethods])
  | finishProgram init traits =>
    exact ((finishProgram_spec init traits).consequence
      (fun _ h => ⟨h.1, h.2 init (by simp [Call.suppliedMethods])⟩) fun _ _ _ => trivial).map
        |>.consequence (fun _ h => h) fun _ _ _ h => absurd h (by simp [Call.returnsMethod])
  | _ => simp [Call.definesRecords] at hc

namespace Emitter

/-! The three ways a step of a run goes. -/

theorem runCalls_ok {e e' : Emitter} {c : Call} {rest : List Call} {r : Reply}
    (h : perform c e = .ok r e') :
    runCalls e (c :: rest) =
      (⟨.ok r, e'.methods.head?⟩ :: (runCalls e' rest).1, (runCalls e' rest).2) := by
  rw [runCalls, h]

theorem runCalls_reported {e e' : Emitter} {c : Call} {rest : List Call} {err : EmitError}
    (h : perform c e = .error (.error err) e') :
    runCalls e (c :: rest) =
      (⟨.error (.error err), e'.methods.head?⟩ :: (runCalls e' rest).1, (runCalls e' rest).2) := by
  rw [runCalls, h]

theorem runCalls_aborted {e e' : Emitter} {c : Call} {rest : List Call} {msg : String}
    (h : perform c e = .error (.abort msg) e') :
    runCalls e (c :: rest) = ([⟨.error (.abort msg), none⟩], none) := by
  rw [runCalls, h]

/-- a run computed to succeed at every step, in the form the run theorems take it -/
theorem runCalls_succeeds (e : Emitter) (calls : List Call)
    (h : (((runCalls e calls).1.all fun s => s.result.isOk) && (runCalls e calls).2.isSome) = true) :
    ∃ steps e', runCalls e calls = (steps, some e') ∧ ∀ s ∈ steps, s.result.isOk := by
  rw [Bool.and_eq_true, List.all_eq_true] at h
  obtain ⟨e', he'⟩ := Option.isSome_iff_exists.1 h.2
  exact ⟨_, e', Prod.ext rfl he', h.1⟩

end Emitter

/-- Every method index a call of the run supplies is known before the run, or was returned by
an earlier `startMethod` or `methodIndex` of the run. -/
def SuppliedKnown (known : Nat → Prop) (calls : List Call) (steps : List Step) : Prop :=
  ∀ (k : Nat) (c : Call), calls[k]? = some c → ∀ i ∈ c.suppliedMethods, known i.toNat ∨
    ∃ j < k, ∃ c' : Call, calls[j]? = some c' ∧ c'.returnsMethod = true ∧
      (steps[j]?).map Step.result = some (.ok (.number i.toNat))

namespace SuppliedKnown

variable {known : Nat → Prop} {c : Call} {rest : List Call} {s : Step} {steps : List Step}

theorem head (h : SuppliedKnown known (c :: rest) steps) :
    ∀ i ∈ c.suppliedMethods, known i.toNat := fun i hi => by
  rcases h 0 c rfl i hi with hk | ⟨j, hj, -⟩
  · exact hk
  · exact absurd hj (Nat.not_lt_zero j)

theorem tail (h : SuppliedKnown known (c :: rest) (s :: steps)) :
    SuppliedKnown (fun n => known n ∨ c.returnsMethod = true ∧ s.result = .ok (.number n))
      rest steps := fun k c' hc' i hi => by
  rcases h (k + 1) c' hc' i hi with hk | ⟨j, hj, c'', hc'', hret, hstep⟩
  · exact Or.inl (Or.inl hk)
  · cases j with
    | zero =>
      simp only [List.getElem?_cons_zero, Option.some.injEq, Option.map_some] at hc'' hstep
      subst hc''
      exact Or.inl (Or.inr ⟨hret, hstep⟩)
    | succ j =>
      exact Or.inr ⟨j, by omega, c'', hc'', hret, hstep⟩

end SuppliedKnown

/-- **A run keeps the module tables sound**, when every method index a call supplies is a
method: known before the run, or returned by an earlier call. -/
theorem Emitter.runCalls_keeps : ∀ (calls : List Call) (e : Emitter) (known : Nat → Prop)
    {e' : Emitter}, (Emitter.runCalls e calls).2 = some e' → e.assembler.Sound →
    (∀ n, known n → n < e.assembler.methods.length) →
    SuppliedKnown known calls (Emitter.runCalls e calls).1 → e.Keeps e'
  | [], e, _, e', hrun, _, _, _ => by
    simp only [Emitter.runCalls, Option.some.injEq] at hrun
    exact hrun ▸ refl_of Emitter.Keeps e
  | c :: rest, e, known, e', hrun, hsound, hknown, hsupplied => by
    obtain ⟨hkeeps, hpost⟩ := Emitter.perform_keeps c e
      ⟨hsound, fun i hi => hknown _ (hsupplied.head i hi)⟩
    cases hp : Emitter.perform c e with
    | ok r e₁ =>
      rw [hp] at hkeeps
      rw [Emitter.runCalls_ok hp] at hrun hsupplied
      refine trans_of Emitter.Keeps hkeeps (Emitter.runCalls_keeps rest e₁ _ hrun
        (hkeeps.assembler.sound hsound) ?_ hsupplied.tail)
      rintro n (hn | ⟨hret, hr⟩)
      · exact hkeeps.method_lt (hknown n hn)
      · cases hr
        exact hpost _ e₁ hp hret n rfl
    | error err e₁ =>
      rw [hp] at hkeeps
      cases err with
      | error err =>
        rw [Emitter.runCalls_reported hp] at hrun hsupplied
        refine trans_of Emitter.Keeps hkeeps (Emitter.runCalls_keeps rest e₁ _ hrun
          (hkeeps.assembler.sound hsound) ?_ hsupplied.tail)
        rintro n (hn | ⟨-, hr⟩)
        · exact hkeeps.method_lt (hknown n hn)
        · cases hr
      | abort msg =>
        rw [Emitter.runCalls_aborted hp] at hrun
        cases hrun

theorem Emitter.finish_module {e : Emitter} {em : EmittedModule} (h : e.finish = .ok em) :
    e.assembler.finish e.config = .ok em.module := by
  unfold Emitter.finish at h
  dsimp only at h
  split at h
  · cases h
  · cases hm : e.assembler.finish e.config with
    | error err =>
      rw [hm] at h
      cases h
    | ok module =>
      rw [hm] at h
      cases h
      rfl

/-- **Every module the emitter finishes reads back as itself**, up to the flags the format
derives. Take a run of calls from a fresh emitter that ends in a finished module of major version
46, whose counts and indices fit their 30-bit fields, in which every method index a call supplies
was returned by an earlier `startMethod` or `methodIndex`. The module is written, and reading the
bytes back gives it again with each method's flags its effective flags and each instance's
protected-namespace bit cleared. -/
theorem Emitter.finish_readsBack (config : Config) (calls : List Call) (steps : List Step)
    (e : Emitter) (em : EmittedModule)
    (hrun : Emitter.runCalls { config } calls = (steps, some e))
    (hsupplied : ∀ (k : Nat) (c : Call), calls[k]? = some c → ∀ i ∈ c.suppliedMethods,
      ∃ j < k, ∃ c' : Call, calls[j]? = some c' ∧ c'.returnsMethod = true ∧
        (steps[j]?).map Step.result = some (.ok (.number i.toNat)))
    (hfinish : e.finish = .ok em) (hmajor : config.majorVersion = 46) (hfits : em.module.Fits) :
    ∃ bs, em.module.toBytes = .ok bs ∧
      Module.ofBytes bs = .ok { em.module with
        methods := em.module.methods.map fun s => { s with flags := s.effectiveFlags }
        instances := em.module.instances.map fun i =>
          { i with flags := setBits i.flags InstanceFlag.protectedNs false } } := by
  -- the run keeps the tables sound, from the empty tables it starts with
  have hkeeps : ({ config } : Emitter).Keeps e :=
    Emitter.runCalls_keeps calls { config } (fun _ => False) (by rw [hrun])
      Assembler.Sound.empty (fun _ h => h.elim)
      (by rw [hrun]; exact fun k c hc i hi => Or.inr (hsupplied k c hc i hi))
  have hsound : e.assembler.Sound := hkeeps.assembler.sound Assembler.Sound.empty
  have hf := Assembler.finished_of_finish (Emitter.finish_module hfinish)
  have hversion : em.module.major = majorVersion := by
    rw [hf.major, hkeeps.config, hmajor]
    rfl
  obtain ⟨bs, hwrite, hread⟩ := Module.ofBytes_toBytes em.module hfits hversion
    (hf.regular hsound) (hf.validate hsound)
  exact ⟨bs, hwrite, hread.trans (congrArg _ (hf.readBack hsound hfits.pool.small))⟩

/-- a method, and a script whose initializer is that method -/
def Call.scriptWithMethod : List Call :=
  [.startMethod { name := "f" }, .returnVoid, .finishMethod {}, .startProgram, .finishProgram 0 {}]

/-- the script with its method, emitted and finished, reads back as itself -/
theorem Emitter.finish_readsBack_script :
    ∃ e em, (Emitter.runCalls {} Call.scriptWithMethod).2 = some e ∧ e.finish = .ok em ∧
      em.module.methods ≠ [] ∧ em.module.bodies ≠ [] ∧ em.module.scripts ≠ [] ∧ em.module.Fits ∧
      ∃ bs, em.module.toBytes = .ok bs ∧
        Module.ofBytes bs = .ok { em.module with
          methods := em.module.methods.map fun s => { s with flags := s.effectiveFlags }
          instances := em.module.instances.map fun i =>
            { i with flags := setBits i.flags InstanceFlag.protectedNs false } } := by
  obtain ⟨steps, e, hrun, -⟩ := Emitter.runCalls_succeeds {} Call.scriptWithMethod (by decide +kernel)
  have hmodule : ((Emitter.runCalls {} Call.scriptWithMethod).2.bind fun e => e.finish.toOption).any
      (fun em => decide (em.module.methods ≠ [] ∧ em.module.bodies ≠ [] ∧ em.module.scripts ≠ [] ∧
        em.module.Fits)) = true := by
    decide +kernel
  have hfirst : (steps[0]?).map Step.result = some (.ok (.number 0)) := by
    rw [show steps = (Emitter.runCalls {} Call.scriptWithMethod).1 by rw [hrun]]
    decide +kernel
  have hsupplied : ∀ (k : Nat) (c : Call), Call.scriptWithMethod[k]? = some c →
      ∀ i ∈ c.suppliedMethods, ∃ j < k, ∃ c' : Call, Call.scriptWithMethod[j]? = some c' ∧
        c'.returnsMethod = true ∧ (steps[j]?).map Step.result = some (.ok (.number i.toNat)) := by
    intro k c hc i hi
    rcases k with _ | _ | _ | _ | _ | k <;>
      simp only [Call.scriptWithMethod, List.getElem?_cons_zero, List.getElem?_cons_succ,
        Option.some.injEq, List.getElem?_nil, reduceCtorEq] at hc <;>
      subst hc <;> simp only [Call.suppliedMethods, List.mem_singleton, List.not_mem_nil] at hi
    subst hi
    exact ⟨0, by omega, _, rfl, rfl, hfirst⟩
  rw [hrun] at hmodule
  cases hf : e.finish with
  | error err => simp [hf, Except.toOption] at hmodule
  | ok em =>
    simp only [hf, Option.bind_some, Except.toOption, Option.any_some, decide_eq_true_eq] at hmodule
    obtain ⟨hmethods, hbodies, hscripts, hfits⟩ := hmodule
    exact ⟨e, em, by rw [hrun], hf, hmethods, hbodies, hscripts, hfits,
      Emitter.finish_readsBack {} _ steps e em hrun hsupplied hf rfl hfits⟩

end Emit

end AbcKit

import AbcKit.Proofs.PoolEntries
/-!
Runs of the constant pool's interface from an empty pool.

A `Pool.Call` is one call of the interface: a scalar, a string, a namespace, a namespace set, a
name, or a qualified name. Every run from the empty pool keeps the pool `Interned`, and the index
each call hands out holds the value it was given (`Pool.Call.runAll_interns`). So two calls get
one index exactly when they intern equal values, and a qualified-name call interns the same entry
as the name it stands for.
-/
namespace AbcKit.Pool

/-- one call of the constant pool's interface -/
inductive Call where
  | int (v : Int32)
  | uint (v : UInt32)
  | double (bits : UInt64)
  | string (s : String)
  | ns (space : Namespace)
  | nsSet (set : List Namespace)
  | name (n : Name)
  | qname (space : Namespace) (n : String)

namespace Call

/-- the interface function a call runs -/
def run : Call → StateM Pool UInt32
  | .int v => Pool.int v
  | .uint v => Pool.uint v
  | .double bits => Pool.double bits
  | .string s => Pool.string s
  | .ns space => Pool.ns space
  | .nsSet set => Pool.nsSet set
  | .name n => Pool.name n
  | .qname space n => Pool.qname space n

/-- run calls in order, collecting the indices they hand out -/
def runAll (calls : List Call) : StateM Pool (List UInt32) := calls.mapM run

/-- the name a call interns; a qualified-name call interns it without the attribute flag -/
def name? : Call → Option Name
  | .name n => some n
  | .qname space n => some (.qname space n false)
  | _ => none

/-- the namespace a call interns -/
def namespace? : Call → Option Namespace
  | .ns space => some space
  | _ => none

/-- the namespace set a call interns -/
def nsSet? : Call → Option (List Namespace)
  | .nsSet set => some set
  | _ => none

end Call

variable {p q : Pool} {c : Call} {i : UInt32}

/-- index `i` of pool `p` holds what call `c` interns -/
def Holds (p : Pool) (c : Call) (i : UInt32) : Prop :=
  match c with
  | .int v => p.ints.get? i.toNat = some v
  | .uint v => p.uints.get? i.toNat = some v
  | .double bits => p.doubles.get? i.toNat = some bits
  | .string s => p.HoldsString i s
  | .ns space => p.HoldsNs i space
  | .nsSet set => p.HoldsSet i set
  | .name n => p.HoldsName i n
  | .qname space n => p.HoldsName i (.qname space n false)


theorem Holds.mono (h : p.Holds c i) (hpq : p.Extends q) : q.Holds c i := by
  cases c with
  | int => exact hpq.ints.get? h
  | uint => exact hpq.uints.get? h
  | double => exact hpq.doubles.get? h
  | string => exact HoldsString.mono h hpq
  | ns => exact HoldsNs.mono h hpq
  | nsSet => exact HoldsSet.mono h hpq
  | name => exact HoldsName.mono hpq h
  | qname => exact HoldsName.mono hpq h

theorem Holds.name {n : Name} (h : p.Holds c i) (hn : c.name? = some n) : p.HoldsName i n := by
  cases c <;> simp only [Call.name?, Option.some.injEq, reduceCtorEq] at hn
  all_goals
    subst hn
    exact h

theorem Holds.namespace {space : Namespace} (h : p.Holds c i) (hs : c.namespace? = some space) :
    p.HoldsNs i space := by
  cases c <;> simp only [Call.namespace?, Option.some.injEq, reduceCtorEq] at hs
  subst hs
  exact h

theorem Holds.nsSet {set : List Namespace} (h : p.Holds c i) (hs : c.nsSet? = some set) :
    p.HoldsSet i set := by
  cases c <;> simp only [Call.nsSet?, Option.some.injEq, reduceCtorEq] at hs
  subst hs
  exact h

namespace Call

theorem run_grows (c : Call) : Grows c.run := by
  cases c with
  | int v => exact int_grows v
  | uint v => exact uint_grows v
  | double bits => exact double_grows bits
  | string s => exact string_grows s
  | ns space => exact ns_grows space
  | nsSet set => exact nsSet_grows set
  | name n => exact name_grows n
  | qname space n => exact qname_grows space n

theorem run_interns (c : Call) : Interns c.run (fun q i => q.Holds c i) := by
  cases c with
  | int v => exact int_interns v
  | uint v => exact uint_interns v
  | double bits => exact double_interns bits
  | string s => exact string_interns s
  | ns space => exact ns_interns space
  | nsSet set => exact nsSet_interns set
  | name n => exact name_interns n
  | qname space n =>
    have h := name_interns (.qname space n false)
    rwa [← qname_eq_name] at h

theorem runAll_grows : ∀ calls : List Call, Grows (runAll calls)
  | [] => Grows.pure _
  | c :: rest => by
    rw [runAll, List.mapM_cons]
    exact (run_grows c).bind fun _ => (runAll_grows rest).bind fun _ => Grows.pure _

/-- a run of calls: each index holds what its call interns, in the pool the run leaves -/
theorem runAll_interns :
    ∀ calls : List Call, Interns (runAll calls) (fun q is => List.Forall₂ q.Holds calls is)
  | [] => by
    intro p q is h hp _
    rw [runAll, List.mapM_nil] at h
    cases h
    exact ⟨hp, .nil⟩
  | c :: rest => by
    intro p q is h hp hs
    rw [runAll, List.mapM_cons] at h
    obtain ⟨i, p₁, h₁, h⟩ := bind_eq_pair h
    obtain ⟨is', p₂, h₂, h⟩ := bind_eq_pair h
    cases h
    have g₂ := (runAll_grows rest).of_eq h₂
    obtain ⟨hp₁, hi⟩ := run_interns c h₁ hp (hs.of_extends g₂)
    obtain ⟨hp₂, his⟩ := runAll_interns rest h₂ hp₁ hs
    exact ⟨hp₂, .cons (hi.mono g₂) his⟩

/-- interning from the empty pool is injective and leaves a closed pool. Over every run of calls
that leaves every table below 2^32 values, two name calls get one index exactly when they intern
equal names, a qualified-name call standing for the name `space::n` without the attribute flag;
likewise for namespace calls and for namespace-set calls. Every index an entry stores names an
existing entry of its table, a type name refers only to earlier names, and reading the text or the
local name of any index ends. -/
theorem runAll_injective (calls : List Call) (is : List UInt32) (p : Pool)
    (hrun : runAll calls {} = (is, p)) (hs : p.Small) :
    (∀ c₁ i₁ c₂ i₂, (c₁, i₁) ∈ calls.zip is → (c₂, i₂) ∈ calls.zip is →
      ∀ n₁ n₂, c₁.name? = some n₁ → c₂.name? = some n₂ → (i₁ = i₂ ↔ n₁ = n₂)) ∧
    (∀ c₁ i₁ c₂ i₂, (c₁, i₁) ∈ calls.zip is → (c₂, i₂) ∈ calls.zip is →
      ∀ s₁ s₂, c₁.namespace? = some s₁ → c₂.namespace? = some s₂ → (i₁ = i₂ ↔ s₁ = s₂)) ∧
    (∀ c₁ i₁ c₂ i₂, (c₁, i₁) ∈ calls.zip is → (c₂, i₂) ∈ calls.zip is →
      ∀ set₁ set₂, c₁.nsSet? = some set₁ → c₂.nsSet? = some set₂ → (i₁ = i₂ ↔ set₁ = set₂)) ∧
    p.Closed ∧
    ∀ i, (∃ s, p.showName i = some s) ∧ ∃ s, p.localName? i = some s := by
  obtain ⟨hp, hholds⟩ := runAll_interns calls hrun Interned.empty hs
  -- each call's index holds its value in the final pool, where holding is one to one
  have hheld : ∀ c i, (c, i) ∈ calls.zip is → p.Holds c i := fun _ _ h => List.forall₂_zip hholds h
  refine ⟨?_, ?_, ?_, hp.closed, hp.closed.rendering_ends⟩
  · intro c₁ i₁ c₂ i₂ h₁ h₂ n₁ n₂ hn₁ hn₂
    exact Relator.rel_eq (HoldsName.biUnique hp.distinct) ((hheld _ _ h₁).name hn₁)
      ((hheld _ _ h₂).name hn₂)
  · intro c₁ i₁ c₂ i₂ h₁ h₂ s₁ s₂ hs₁ hs₂
    exact Relator.rel_eq (HoldsNs.biUnique hp.distinct) ((hheld _ _ h₁).namespace hs₁)
      ((hheld _ _ h₂).namespace hs₂)
  · intro c₁ i₁ c₂ i₂ h₁ h₂ set₁ set₂ hs₁ hs₂
    exact Relator.rel_eq (HoldsSet.biUnique hp.distinct) ((hheld _ _ h₁).nsSet hs₁)
      ((hheld _ _ h₂).nsSet hs₂)

/-- a vector of a type interned after the type, then the type again as a qualified name -/
def vectorOfName : List Call :=
  [.qname Namespace.public "T",
    .name (.typeName (.qname Namespace.public "Vector" false) [.qname Namespace.public "T" false]),
    .name (.qname Namespace.public "T" false)]

/-- the type interned twice gets one index, the vector another, and every name reads back -/
theorem runAll_injective_vector :
    (runAll vectorOfName {}).1 = [1, 3, 1] ∧ (runAll vectorOfName {}).2.Small ∧
      ∀ i, (∃ s, (runAll vectorOfName {}).2.showName i = some s) ∧
        ∃ s, (runAll vectorOfName {}).2.localName? i = some s := by
  -- one evaluation of the run gives the indices and the table sizes
  have hcomputed : (runAll vectorOfName {}).1 = [1, 3, 1] ∧
      (runAll vectorOfName {}).2.ints.size + (runAll vectorOfName {}).2.uints.size +
        (runAll vectorOfName {}).2.doubles.size + (runAll vectorOfName {}).2.strings.size +
        (runAll vectorOfName {}).2.namespaces.size + (runAll vectorOfName {}).2.nsSets.size +
        (runAll vectorOfName {}).2.names.size < 2 ^ 32 := by
    decide +kernel
  have hsmall : (runAll vectorOfName {}).2.Small := by
    constructor <;> omega
  exact ⟨hcomputed.1, hsmall,
    (runAll_injective vectorOfName _ _ Prod.mk.eta.symm hsmall).2.2.2.2⟩

end Call

end AbcKit.Pool

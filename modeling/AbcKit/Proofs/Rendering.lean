import Mathlib.Logic.Relation
import Mathlib.Data.Finset.Card
import AbcKit.Proofs.Canonical
import AbcKit.Proofs.PoolEntries
import AbcKit.NativeHeader
/-!
Writing out a name ends exactly when its chain of type names does.

The pool stores the base and the parameters of a type name as indices, read as they stand, so a
type name may name itself or a name after it. Writing a name out (`Pool.showNameWithin`) and
finding its local name (`Pool.localNameWithin`) recurse through them, and give out at a depth
exactly when a walk of that many steps starts at the index (`Pool.showNameWithin_eq_none_iff`,
`Pool.localNameWithin_eq_none_iff`); a finished answer stays the same at every greater depth
(`Pool.showNameWithin_mono`, `Pool.localNameWithin_succ`).

A walk longer than the number of names repeats an index, so it goes round a cycle, and then
walks of every length start there (`Walks.reachesCycle`, `ReachesCycle.walks`). So the depth the
size of the name table gives is enough whenever some depth is, and writing out a name, or finding
its local name, ends exactly when no cycle is in reach (`Pool.rendering_ends_iff`). The reader
checks none of this: a module whose one name is a type name with itself as its base reads back
from its bytes, and nothing that writes out or looks up that name ends
(`Module.selfBased_name_never_ends`).
-/
namespace AbcKit

/-! ## Walks along a relation -/

section Walks

variable {α : Type} (r : α → α → Prop)

/-- a walk of `n` steps along `r` starts at `a` -/
def Walks : Nat → α → Prop
  | 0, _ => True
  | n + 1, a => ∃ b, r a b ∧ Walks n b

/-- a walk along `r` from `a` reaches a point from which it can come back to that point -/
def ReachesCycle (a : α) : Prop :=
  ∃ b, Relation.ReflTransGen r a b ∧ Relation.TransGen r b b

variable {r}

theorem ReachesCycle.step {a : α} (h : ReachesCycle r a) : ∃ b, r a b ∧ ReachesCycle r b := by
  obtain ⟨c, hac, hcc⟩ := h
  rcases Relation.ReflTransGen.cases_head hac with rfl | ⟨b, hab, hbc⟩
  · -- `a` is on the cycle itself: step along it and come back round
    obtain ⟨b, hab, hba⟩ := Relation.TransGen.head'_iff.mp hcc
    exact ⟨b, hab, a, hba, hcc⟩
  · exact ⟨b, hab, c, hbc, hcc⟩

/-- walks of every length start at a point that reaches a cycle -/
theorem ReachesCycle.walks : ∀ (n : Nat) {a : α}, ReachesCycle r a → Walks r n a
  | 0, _, _ => trivial
  | n + 1, _, h => by
    obtain ⟨b, hab, hb⟩ := h.step
    exact ⟨b, hab, ReachesCycle.walks n hb⟩

/-- a walk is a sequence of points, each a step along `r` from the one before -/
theorem Walks.seq : ∀ {n : Nat} {a : α}, Walks r n a →
    ∃ c : Nat → α, c 0 = a ∧ ∀ k < n, r (c k) (c (k + 1))
  | 0, a, _ => ⟨fun _ => a, rfl, fun k hk => absurd hk (Nat.not_lt_zero k)⟩
  | _ + 1, a, ⟨b, hab, hb⟩ => by
    obtain ⟨c, hc0, hc⟩ := Walks.seq hb
    refine ⟨fun k => if k = 0 then a else c (k - 1), by simp, fun k hk => ?_⟩
    cases k with
    | zero => simpa [hc0] using hab
    | succ k => simpa using hc k (by omega)

/-- the points of a sequence of steps between two places of it are joined by a path -/
theorem reflTransGen_of_seq {c : Nat → α} {n : Nat} (hc : ∀ k < n, r (c k) (c (k + 1))) :
    ∀ a m, a + m ≤ n → Relation.ReflTransGen r (c a) (c (a + m))
  | _, 0, _ => .refl
  | a, m + 1, h => (reflTransGen_of_seq hc a m (by omega)).tail (hc (a + m) (by omega))

/-- A walk with more steps than there are points that have a step (all of them in `s`) passes
one point twice, so it reaches a cycle. -/
theorem Walks.reachesCycle [DecidableEq α] (s : Finset α) (hs : ∀ a b, r a b → a ∈ s) {n : Nat}
    (hn : s.card < n) {a : α} (h : Walks r n a) : ReachesCycle r a := by
  obtain ⟨c, rfl, hc⟩ := h.seq
  -- the first `n` points each take a step, so they lie in `s`, which has fewer than `n` points
  obtain ⟨x, hx, y, hy, hxy, hcxy⟩ := Finset.exists_ne_map_eq_of_card_lt_of_maps_to
    (s := Finset.range n) (t := s) (by simpa using hn) (f := c)
    (fun k hk => hs _ _ (hc k (Finset.mem_range.mp hk)))
  obtain ⟨i, j, hij, hj, hcij⟩ : ∃ i j, i < j ∧ j < n ∧ c i = c j := by
    rcases Nat.lt_or_gt_of_ne hxy with hlt | hlt
    · exact ⟨x, y, hlt, Finset.mem_range.mp hy, hcxy⟩
    · exact ⟨y, x, hlt, Finset.mem_range.mp hx, hcxy.symm⟩
  refine ⟨c i, by simpa using reflTransGen_of_seq hc 0 i (by omega), ?_⟩
  -- from the first visit of `c i`, the walk comes back to it at step `j`
  have hstep : r (c i) (c (i + 1)) := hc i (by omega)
  have hback := reflTransGen_of_seq hc (i + 1) (j - (i + 1)) (by omega)
  rw [show i + 1 + (j - (i + 1)) = j by omega, ← hcij] at hback
  exact Relation.TransGen.head' hstep hback

end Walks

/-- `mapM` into `Option` gives out exactly when the function gives out on some member -/
theorem mapM_eq_none_iff {α β : Type} {f : α → Option β} :
    ∀ {l : List α}, l.mapM f = none ↔ ∃ x ∈ l, f x = none
  | [] => by simp
  | x :: l => by
    have ih := mapM_eq_none_iff (f := f) (l := l)
    rw [List.mapM_cons]
    cases hx : f x with
    | none => simp [hx]
    | some b =>
      cases hl : l.mapM f with
      | none => simpa [hx, hl] using ih
      | some ys => simpa [hx, hl] using ih

/-- a finished `mapM` into `Option` stays finished under a function that keeps every answer the
first one gives on the list -/
theorem mapM_eq_some_of_keeps {α β : Type} {f g : α → Option β}
    (hfg : ∀ x y, f x = some y → g x = some y) :
    ∀ {l : List α} {ys : List β}, l.mapM f = some ys → l.mapM g = some ys
  | [], _, h => by simpa using h
  | x :: l, ys, h => by
    rw [List.mapM_cons] at h ⊢
    cases hx : f x with
    | none => simp [hx] at h
    | some y =>
      cases hl : l.mapM f with
      | none => simp [hx, hl] at h
      | some zs =>
        simp only [hx, hl, Option.pure_def, Option.bind_eq_bind, Option.bind_some] at h
        simp [hfg x y hx, mapM_eq_some_of_keeps hfg hl, h]

namespace Pool

variable (p : Pool)

/-! ## The chains that writing a name follows -/

/-- the name at `i` is a type name with `j` as its base or as one of its parameters -/
def NamesPart (i j : UInt32) : Prop :=
  ∃ base params, p.entry? i = some (.typeName base params) ∧ (j = base ∨ j ∈ params)

/-- the name at `i` is a type name with base `j` -/
def HasBase (i j : UInt32) : Prop := ∃ params, p.entry? i = some (.typeName j params)

/-- writing out the name at `i` ends: some depth of nested type names is enough -/
def ShowEnds (i : UInt32) : Prop := ∃ n s, p.showNameWithin n i = some s

/-- finding the local name of the name at `i` ends: some length of the chain of bases is
enough -/
def LocalEnds (i : UInt32) : Prop := ∃ n r, p.localNameWithin n i = some r

/-- the indices that hold a name -/
def indices : Finset UInt32 := (Finset.range p.names.size).image fun k => UInt32.ofNat (k + 1)

variable {p}

theorem entry?_zero : p.entry? 0 = none := rfl

theorem mem_indices {i : UInt32} {e : NameEntry} (h : p.entry? i = some e) : i ∈ p.indices := by
  obtain ⟨h1, h2⟩ := Table.get?_bounds h
  refine Finset.mem_image.mpr ⟨i.toNat - 1, Finset.mem_range.mpr (by omega), ?_⟩
  rw [show i.toNat - 1 + 1 = i.toNat by omega, UInt32.ofNat_toNat]

variable (p)

theorem card_indices_le : p.indices.card ≤ p.names.size :=
  Finset.card_image_le.trans (Finset.card_range _).le

variable {p}

theorem namesPart_iff {i j base : UInt32} {params : List UInt32}
    (he : p.entry? i = some (.typeName base params)) : p.NamesPart i j ↔ j = base ∨ j ∈ params := by
  simp [NamesPart, he]

theorem hasBase_iff {i j base : UInt32} {params : List UInt32}
    (he : p.entry? i = some (.typeName base params)) : p.HasBase i j ↔ j = base := by
  simp [HasBase, he, eq_comm]

/-! ## One level of a name -/

/-- a type name writes its parameters and its base one level down -/
theorem showNameWithin_typeName {n : Nat} {i base : UInt32} {params : List UInt32}
    (he : p.entry? i = some (.typeName base params)) :
    p.showNameWithin (n + 1) i = (do
      let ps ← params.mapM (p.showNameWithin n)
      let b ← p.showNameWithin n base
      pure (b ++ ".<" ++ ",".intercalate ps ++ ">")) := by
  have hi : i ≠ 0 := by
    rintro rfl
    simp [entry?_zero] at he
  simp only [showNameWithin, if_neg hi, he]

/-- any other name is written out at the first level, whatever the depth -/
theorem showNameWithin_of_not_typeName {n : Nat} {i : UInt32}
    (h : ∀ base params, p.entry? i ≠ some (.typeName base params)) :
    p.showNameWithin (n + 1) i = p.showNameWithin 1 i := by
  simp only [showNameWithin]
  split
  · rfl
  · cases he : p.entry? i with
    | none => rfl
    | some e =>
      cases e with
      | typeName base params => exact absurd he (h base params)
      | _ => rfl

/-- the local name of a type name is the local name of its base, one step down -/
theorem localNameWithin_typeName {n : Nat} {i base : UInt32} {params : List UInt32}
    (he : p.entry? i = some (.typeName base params)) :
    p.localNameWithin (n + 1) i = p.localNameWithin n base := by
  simp only [localNameWithin, he]

/-- any other name has its local name at the first step, whatever the length allowed -/
theorem localNameWithin_of_not_typeName {n : Nat} {i : UInt32}
    (h : ∀ base params, p.entry? i ≠ some (.typeName base params)) :
    p.localNameWithin (n + 1) i = p.localNameWithin 1 i := by
  simp only [localNameWithin]
  cases he : p.entry? i with
  | none => rfl
  | some e =>
    cases e with
    | typeName base params => exact absurd he (h base params)
    | _ => rfl

/-! ## Where writing a name gives out -/

/-- writing out the name at `i` gives out at depth `n` exactly when a walk of `n` steps through
the bases and parameters of type names starts at `i` -/
theorem showNameWithin_eq_none_iff : ∀ {n : Nat} {i : UInt32},
    p.showNameWithin n i = none ↔ Walks p.NamesPart n i
  | 0, _ => by simp [showNameWithin, Walks]
  | n + 1, i => by
    by_cases ht : ∃ base params, p.entry? i = some (.typeName base params)
    · obtain ⟨base, params, he⟩ := ht
      have hparams : params.mapM (p.showNameWithin n) = none ↔
          ∃ q ∈ params, Walks p.NamesPart n q := by
        simp only [mapM_eq_none_iff, showNameWithin_eq_none_iff]
      simp only [showNameWithin_typeName he, Walks, namesPart_iff he, or_and_right, exists_or,
        exists_eq_left]
      cases hm : params.mapM (p.showNameWithin n) with
      | none =>
        simp only [Option.bind_eq_bind, Option.bind_none, true_iff]
        exact Or.inr (hparams.mp hm)
      | some ps =>
        have hq : ¬ ∃ q ∈ params, Walks p.NamesPart n q := by rw [← hparams, hm]; simp
        cases hb : p.showNameWithin n base with
        | none =>
          simp only [Option.bind_eq_bind, Option.bind_some, Option.bind_none, true_iff]
          exact Or.inl (showNameWithin_eq_none_iff.mp hb)
        | some b =>
          have hbase : ¬ Walks p.NamesPart n base := by
            rw [← showNameWithin_eq_none_iff, hb]
            simp
          simp [hq, hbase]
    · simp only [not_exists] at ht
      rw [showNameWithin_of_not_typeName ht]
      have hno : ¬ Walks p.NamesPart (n + 1) i := by
        rintro ⟨j, ⟨base, params, he, -⟩, -⟩
        exact ht base params he
      simp only [hno, iff_false]
      simp only [showNameWithin]
      split
      · simp
      · cases he : p.entry? i with
        | none => simp
        | some e =>
          cases e with
          | typeName base params => exact absurd he (ht base params)
          | _ => simp

/-- finding the local name of the name at `i` gives out after `n` steps exactly when a walk of
`n` steps through the bases of type names starts at `i` -/
theorem localNameWithin_eq_none_iff : ∀ {n : Nat} {i : UInt32},
    p.localNameWithin n i = none ↔ Walks p.HasBase n i
  | 0, _ => by simp [localNameWithin, Walks]
  | n + 1, i => by
    by_cases ht : ∃ base params, p.entry? i = some (.typeName base params)
    · obtain ⟨base, params, he⟩ := ht
      simp only [localNameWithin_typeName he, Walks, hasBase_iff he, exists_eq_left]
      exact localNameWithin_eq_none_iff
    · simp only [not_exists] at ht
      have hno : ¬ Walks p.HasBase (n + 1) i := by
        rintro ⟨j, ⟨params, he⟩, -⟩
        exact ht j params he
      rw [localNameWithin_of_not_typeName ht]
      simp only [hno, iff_false, localNameWithin]
      cases he : p.entry? i with
      | none => simp
      | some e =>
        cases e with
        | typeName base params => exact absurd he (ht base params)
        | _ => simp

/-! ## More depth keeps a finished answer -/

/-- a text finished at some depth is the text at the next depth too -/
theorem showNameWithin_succ : ∀ {n : Nat} {i : UInt32} {s : String},
    p.showNameWithin n i = some s → p.showNameWithin (n + 1) i = some s
  | 0, _, _, h => by simp [showNameWithin] at h
  | n + 1, i, s, h => by
    by_cases ht : ∃ base params, p.entry? i = some (.typeName base params)
    · obtain ⟨base, params, he⟩ := ht
      rw [showNameWithin_typeName he] at h ⊢
      cases hm : params.mapM (p.showNameWithin n) with
      | none => simp [hm] at h
      | some ps =>
        cases hb : p.showNameWithin n base with
        | none => simp [hm, hb] at h
        | some b =>
          rw [mapM_eq_some_of_keeps (fun _ _ => showNameWithin_succ) hm, showNameWithin_succ hb]
          simpa [hm, hb] using h
    · simp only [not_exists] at ht
      rw [showNameWithin_of_not_typeName ht] at h ⊢
      exact h

theorem showNameWithin_mono {n m : Nat} {i : UInt32} {s : String}
    (h : p.showNameWithin n i = some s) (hnm : n ≤ m) : p.showNameWithin m i = some s := by
  induction m, hnm using Nat.le_induction with
  | base => exact h
  | succ m _ ih => exact showNameWithin_succ ih

/-- a local name found within some number of steps is found within one more -/
theorem localNameWithin_succ : ∀ {n : Nat} {i : UInt32} {r : Option String},
    p.localNameWithin n i = some r → p.localNameWithin (n + 1) i = some r
  | 0, _, _, h => by simp [localNameWithin] at h
  | n + 1, i, r, h => by
    by_cases ht : ∃ base params, p.entry? i = some (.typeName base params)
    · obtain ⟨base, params, he⟩ := ht
      rw [localNameWithin_typeName he] at h ⊢
      exact localNameWithin_succ h
    · simp only [not_exists] at ht
      rw [localNameWithin_of_not_typeName ht] at h ⊢
      exact h

/-! ## Rendering ends exactly when no cycle is in reach -/

/-- a walk through type names as long as the depth bound reaches a cycle -/
theorem reachesCycle_of_walks_depthBound {r : UInt32 → UInt32 → Prop}
    (hr : ∀ i j, r i j → ∃ e, p.entry? i = some e) {i : UInt32}
    (h : Walks r p.depthBound i) : ReachesCycle r i := by
  have hcard := p.card_indices_le
  refine h.reachesCycle p.indices (fun a b hab => ?_) (by unfold depthBound; omega)
  obtain ⟨e, he⟩ := hr a b hab
  exact mem_indices he

/-- writing out the name at `i` ends exactly when no walk from `i` through the bases and
parameters of type names reaches a cycle -/
theorem showEnds_iff {i : UInt32} : p.ShowEnds i ↔ ¬ ReachesCycle p.NamesPart i := by
  constructor
  · rintro ⟨n, s, hs⟩ hcycle
    have hnone := showNameWithin_eq_none_iff.mpr (hcycle.walks n)
    rw [hs] at hnone
    cases hnone
  · intro hno
    refine ⟨p.depthBound, ?_⟩
    cases h : p.showNameWithin p.depthBound i with
    | some s => exact ⟨s, rfl⟩
    | none =>
      refine absurd (reachesCycle_of_walks_depthBound ?_ (showNameWithin_eq_none_iff.mp h)) hno
      rintro _ _ ⟨base, params, he, -⟩
      exact ⟨_, he⟩

/-- finding the local name at `i` ends exactly when no walk from `i` through the bases of type
names reaches a cycle -/
theorem localEnds_iff {i : UInt32} : p.LocalEnds i ↔ ¬ ReachesCycle p.HasBase i := by
  constructor
  · rintro ⟨n, r, hr⟩ hcycle
    have hnone := localNameWithin_eq_none_iff.mpr (hcycle.walks n)
    rw [hr] at hnone
    cases hnone
  · intro hno
    refine ⟨p.depthBound, ?_⟩
    cases h : p.localNameWithin p.depthBound i with
    | some r => exact ⟨r, rfl⟩
    | none =>
      refine absurd (reachesCycle_of_walks_depthBound ?_ (localNameWithin_eq_none_iff.mp h)) hno
      rintro _ _ ⟨params, he⟩
      exact ⟨_, he⟩

/-- The depth the size of the name table gives loses nothing: `showName` gives out only when
writing the name never ends, and otherwise gives the text every sufficient depth gives. -/
theorem showName_eq_some_of {n : Nat} {i : UInt32} {s : String}
    (h : p.showNameWithin n i = some s) : p.showName i = some s := by
  have hends : p.ShowEnds i := ⟨n, s, h⟩
  obtain ⟨t, ht⟩ : ∃ t, p.showName i = some t := by
    rw [showEnds_iff] at hends
    cases hb : p.showName i with
    | some t => exact ⟨t, rfl⟩
    | none =>
      exact absurd (reachesCycle_of_walks_depthBound (fun _ _ ⟨_, _, he, _⟩ => ⟨_, he⟩)
        (showNameWithin_eq_none_iff.mp hb)) hends
  -- both answers are the answer at the greater of the two depths
  have h₁ := showNameWithin_mono h (le_max_left n p.depthBound)
  have h₂ := showNameWithin_mono ht (le_max_right n p.depthBound)
  rw [ht, ← h₂, h₁]

theorem showName_eq_none_iff {i : UInt32} : p.showName i = none ↔ ¬ p.ShowEnds i := by
  constructor
  · rintro h ⟨n, s, hs⟩
    rw [showName_eq_some_of hs] at h
    cases h
  · intro h
    cases hs : p.showName i with
    | none => rfl
    | some s => exact absurd ⟨_, s, hs⟩ h

end Pool

/-- Writing out the name at any index of any pool ends exactly when no walk from it through the
bases and parameters of type names reaches a cycle, and finding its local name ends exactly when
no walk through the bases does. -/
theorem Pool.rendering_ends_iff (p : Pool) (i : UInt32) :
    (p.ShowEnds i ↔ ¬ ReachesCycle p.NamesPart i) ∧
      (p.LocalEnds i ↔ ¬ ReachesCycle p.HasBase i) :=
  ⟨Pool.showEnds_iff, Pool.localEnds_iff⟩

/-- A module whose one name is a type name with itself as its base, and the name of its one
class. The writer accepts it and the reader reads its bytes back as the same module; yet writing
out that name never ends, nor does finding its local name, nor the native header, which looks up
the name of every class. -/
theorem Module.selfBased_name_never_ends :
    let m : Module :=
      { pool := { names := Table.ofList [.typeName 1 []] }, methods := [{}],
        instances := [{ name := 1 }], classes := [{}] }
    ∃ bs, m.toBytes = .ok bs ∧ Module.ofBytes bs = .ok m ∧
      ¬ m.pool.ShowEnds 1 ∧ ¬ m.pool.LocalEnds 1 ∧ NativeHeader.ofModule m = none := by
  intro m
  have hentry : m.pool.entry? 1 = some (.typeName 1 []) := rfl
  have small : ∀ n : Nat, n ≤ 2 → VarInt.Fits n := fun n h => by
    unfold VarInt.Fits VarInt.maxU30
    omega
  have hnames : m.pool.names.Fits NameEntry.Fits :=
    ⟨small 2 le_rfl, fun e he => by
      simp only [m, Table.toList_ofList, List.mem_singleton] at he
      subst he
      exact ⟨small 1 (by decide), small 0 (by decide), by simp⟩⟩
  have hfits : m.Fits :=
    { pool := ⟨Table.fits_empty, Table.fits_empty, Table.fits_empty, Table.fits_empty,
        Table.fits_empty, Table.fits_empty, hnames⟩
      methodCount := small 1 (by decide)
      methods := fun sig hs => by
        simp only [m, List.mem_singleton] at hs
        subst hs
        exact ⟨small 0 (by decide), small 0 (by decide), by simp, small 0 (by decide),
          small 0 (by decide), by simp, by simp⟩
      metadataCount := small 0 (by decide)
      metadata := by simp [m]
      classCount := small 1 (by decide)
      instances := fun inst hi => by
        simp only [m, List.mem_singleton] at hi
        subst hi
        exact ⟨small 1 (by decide), small 0 (by decide), by simp, small 0 (by decide), by simp,
          small 0 (by decide), small 0 (by decide), by simp⟩
      classes := fun c hc => by
        simp only [m, List.mem_singleton] at hc
        subst hc
        exact ⟨small 0 (by decide), small 0 (by decide), by simp⟩
      scriptCount := small 0 (by decide)
      scripts := by simp [m]
      bodyCount := small 0 (by decide)
      bodies := by simp [m] }
  obtain ⟨bs, hbytes, hread⟩ := Module.ofBytes_toBytes m hfits rfl
    (fun sig hs => by
      simp only [m, List.mem_singleton] at hs
      exact Or.inl (hs ▸ rfl)) rfl
  have hback : m.readBack = m := by decide
  refine ⟨bs, hbytes, hback ▸ hread, ?_, ?_, by rfl⟩
  · -- the name is one step from itself through its base
    rw [Pool.showEnds_iff, not_not]
    exact ⟨1, .refl, .single ⟨1, [], hentry, .inl rfl⟩⟩
  · rw [Pool.localEnds_iff, not_not]
    exact ⟨1, .refl, .single ⟨[], hentry⟩⟩

end AbcKit

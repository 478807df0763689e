import AbcKit.Proofs.AssemblerTables
/-!
Histories of calls on one deduplicating table.

A history is a list of `Table.Call`s, each `intern` or `push`, run in order from some table
(`Table.runAll`). The pool's string interning is `intern` on its string table, so it is covered
by the same calls. What one call does is `Table.Call.Answers`; what a whole run keeps is that it
only appends (`runAll_extends`), and that every index it hands out keeps being where `find?`
finds an interned value (`runAll_finds`) and, while the table holds fewer than 2^32 values, keeps
holding its call's value (`runAll_holds`). Interning alone builds the history's distinct values
in first-seen order (`runAll_intern_toList`), and interning values the table already finds
changes nothing (`runAll_intern_found`).

Main statement: `Table.runAll_firstOccurrence`.
-/
namespace AbcKit

/-! ## Distinct values of a list, in first-seen order -/

section Lists

variable {α : Type} [BEq α] [LawfulBEq α]

theorem nodup_eraseDups (l : List α) : l.eraseDups.Nodup := by
  cases l with
  | nil => simp
  | cons a l =>
    rw [List.eraseDups_cons, List.nodup_cons]
    refine ⟨by simp [List.mem_eraseDups], nodup_eraseDups (l.filter fun b => !b == a)⟩
termination_by l.length
decreasing_by simpa using Nat.lt_succ_of_le (List.length_filter_le (fun b => !b == a) l)

theorem eraseDups_concat_of_mem {l : List α} {x : α} (h : x ∈ l) :
    (l ++ [x]).eraseDups = l.eraseDups := by
  rw [List.eraseDups_append]
  simp [List.removeAll, h]

theorem eraseDups_concat_of_not_mem {l : List α} {x : α} (h : x ∉ l) :
    (l ++ [x]).eraseDups = l.eraseDups ++ [x] := by
  rw [List.eraseDups_append]
  simp [List.removeAll, h, List.eraseDups_cons]

end Lists

namespace Table

/-- one call on a table: `intern` hands out the index of an equal value or appends, `push`
always appends -/
inductive Call (α : Type) where
  | intern (v : α)
  | push (v : α)

variable {α : Type}

namespace Call

/-- the value a call hands to the table -/
def value : Call α → α
  | .intern v | .push v => v

/-- What one call does, said through the table's values: interning a value the table holds
hands out the index `find?` gives it and leaves the table; interning a new value, or pushing any
value, appends it and hands out the new size as a 32-bit word. -/
def Answers [BEq α] (t : Table α) : Call α → Table α → UInt32 → Prop
  | .intern v, t', i =>
    (v ∈ t.toList ∧ t' = t ∧ t.find? v = some i.toNat) ∨
      (v ∉ t.toList ∧ t'.toList = t.toList ++ [v] ∧ i = (t.size + 1).toUInt32)
  | .push v, t', i => t'.toList = t.toList ++ [v] ∧ i = (t.size + 1).toUInt32

variable [BEq α]

/-- the table after the call, and the index the call hands out -/
def run : Call α → Table α → Table α × UInt32
  | .intern v, t => t.intern v
  | .push v, t => t.push v

end Call

/-- run calls in order: the table they leave, and the index each call handed out -/
def runAll [BEq α] : List (Call α) → Table α → Table α × List UInt32
  | [], t => (t, [])
  | c :: cs, t =>
    let (t₁, i) := c.run t
    let (t₂, is) := runAll cs t₁
    (t₂, i :: is)

theorem get?_of_pos [BEq α] {t : Table α} {k : Nat} (h : 1 ≤ k) : t.get? k = t.toList[k - 1]? := by
  simp [get?, toList, Nat.ne_of_gt h]

theorem get?_eq_none_of [BEq α] {t : Table α} {k : Nat} (h : k = 0 ∨ t.size < k) :
    t.get? k = none := by
  unfold get?
  rcases h with h | h
  · simp [h]
  · simp only [show k ≠ 0 by omega, if_false]
    exact Array.getElem?_eq_none (by simp only [size] at h; omega)

variable [BEq α]

theorem runAll_cons (c : Call α) (cs : List (Call α)) (t : Table α) :
    runAll (c :: cs) t = ((runAll cs (c.run t).1).1, (c.run t).2 :: (runAll cs (c.run t).1).2) :=
  rfl

theorem Call.run_extends (c : Call α) (t : Table α) : t.Extends (c.run t).1 := by
  cases c with
  | intern v => exact intern_extends t v
  | push v => exact push_extends t v

/-- a run only appends: the table it started from is a prefix of the one it leaves -/
theorem runAll_extends : ∀ (calls : List (Call α)) (t : Table α), t.Extends (runAll calls t).1
  | [], t => Extends.refl t
  | c :: cs, t => (c.run_extends t).trans (runAll_extends cs _)

/-- What each call makes true of the table it leaves, and extending a table keeps, holds of
every call of a run in the table the run leaves. -/
theorem runAll_forall₂ {P : Table α → Call α → UInt32 → Prop}
    (hstep : ∀ c t, P (c.run t).1 c (c.run t).2)
    (hmono : ∀ {t t'} c i, t.Extends t' → P t c i → P t' c i) :
    ∀ (calls : List (Call α)) (t : Table α),
      List.Forall₂ (fun c i => P (runAll calls t).1 c i) calls (runAll calls t).2
  | [], _ => .nil
  | c :: cs, t => by
    rw [runAll_cons]
    exact .cons (hmono c _ (runAll_extends cs _) (hstep c t)) (runAll_forall₂ hstep hmono cs _)

/-- interning values the table already finds hands out the indices it finds and changes
nothing -/
theorem runAll_intern_found : ∀ {vs : List α} {is : List UInt32} {t : Table α},
    List.Forall₂ (fun v i => t.find? v = some i.toNat) vs is → runAll (vs.map .intern) t = (t, is)
  | [], [], _, .nil => rfl
  | v :: vs, i :: is, t, .cons hv hrest => by
    simp only [List.map_cons, runAll_cons, Call.run, intern_of_find? hv, runAll_intern_found hrest]

variable [LawfulBEq α] {t : Table α} {v : α}

theorem firstIndex?_of_mem (h : v ∈ t.toList) : t.firstIndex? v = some (t.toList.idxOf v + 1) := by
  have hlt : t.toList.idxOf v < t.toList.length := List.idxOf_lt_length_of_mem h
  refine firstIndex?_eq_some_iff.mpr ⟨get?_eq_some.mpr ⟨by omega, ?_⟩, fun j hj hjv => ?_⟩
  · simp [List.getElem?_eq_getElem hlt]
  · obtain ⟨hj0, hjv⟩ := get?_eq_some.mp hjv
    obtain ⟨hjlt, hv⟩ := List.getElem?_eq_some_iff.mp hjv
    -- no position before the first occurrence holds the value
    have hbefore : j - 1 < t.toList.findIdx (· == v) := by
      simp only [List.idxOf] at hj
      omega
    have := List.not_of_lt_findIdx hbefore
    simp [hv] at this

theorem Call.run_answers (c : Call α) (t : Table α) : c.Answers t (c.run t).1 (c.run t).2 := by
  cases c with
  | intern v =>
    by_cases h : v ∈ t.toList
    · obtain ⟨k, hk, hint⟩ := intern_of_mem h
      refine .inl ⟨h, by rw [run, hint], ?_⟩
      rw [run, hint, find?_eq_firstIndex?, hk, Option.map_some]
    · exact .inr ⟨h, by rw [run, intern_of_not_mem h, toList_push],
        by rw [run, intern_of_not_mem h, push_index]⟩
  | push v => exact ⟨toList_push t v, push_index t v⟩

theorem Call.run_finds (c : Call α) (t : Table α) :
    ∀ v, c = .intern v → (c.run t).1.find? v = some (c.run t).2.toNat := by
  rintro v rfl
  exact find?_intern t v

/-- every interned value is found where the run handed out its index -/
theorem runAll_finds (calls : List (Call α)) (t : Table α) :
    List.Forall₂ (fun c i => ∀ v, c = .intern v → (runAll calls t).1.find? v = some i.toNat) calls
      (runAll calls t).2 :=
  runAll_forall₂ (P := fun t c i => ∀ v, c = .intern v → t.find? v = some i.toNat)
    Call.run_finds (fun _ _ ht h v hv => ht.find? (h v hv)) calls t

theorem Call.run_holds (c : Call α) (t : Table α) (hs : (c.run t).1.size < 2 ^ 32) :
    (c.run t).1.get? (c.run t).2.toNat = some c.value := by
  cases c with
  | intern v => exact get?_intern_word hs
  | push v =>
    have hlt : t.size + 1 < 2 ^ 32 := by simpa [run] using hs
    simp only [run, value, push_index, Nat.toUInt32_eq, UInt32.toNat_ofNat', Nat.mod_eq_of_lt hlt]
    exact get?_push

/-- Indices are stable: while the table a run leaves holds fewer than 2^32 values, every index
the run handed out holds its call's value there, an interned value being found there. -/
theorem runAll_holds (calls : List (Call α)) (t : Table α) (hs : (runAll calls t).1.size < 2 ^ 32) :
    List.Forall₂ (fun c i => (runAll calls t).1.get? i.toNat = some c.value ∧
      ∀ v, c = .intern v → (runAll calls t).1.find? v = some i.toNat) calls (runAll calls t).2 := by
  -- each table of the run is smaller than the last, so the bound is carried along as a premise
  have h := runAll_forall₂ (P := fun t c i => (t.size < 2 ^ 32 → t.get? i.toNat = some c.value) ∧
      ∀ v, c = .intern v → t.find? v = some i.toNat)
    (fun c t => ⟨c.run_holds t, c.run_finds t⟩)
    (fun _ _ ht h => ⟨fun hs' => ht.get? (h.1 (Nat.lt_of_le_of_lt ht.size_le hs')),
      fun v hv => ht.find? (h.2 v hv)⟩) calls t
  exact h.imp fun _ _ hi => ⟨hi.1 hs, hi.2⟩

/-- Interning continues a history: a table holding the distinct values of `l` holds, after
interning `vs`, the distinct values of `l ++ vs`. -/
theorem runAll_intern_toList : ∀ (vs l : List α) (t : Table α), t.toList = l.eraseDups →
    (runAll (vs.map .intern) t).1.toList = (l ++ vs).eraseDups
  | [], l, t, ht => by simpa [runAll] using ht
  | v :: vs, l, t, ht => by
    have hstep : (t.intern v).1.toList = (l ++ [v]).eraseDups := by
      by_cases hv : v ∈ l
      · have hmem : v ∈ t.toList := by simpa [ht, List.mem_eraseDups] using hv
        obtain ⟨k, -, hint⟩ := intern_of_mem hmem
        rw [hint, eraseDups_concat_of_mem hv, ht]
      · have hmem : v ∉ t.toList := by simpa [ht, List.mem_eraseDups] using hv
        rw [intern_of_not_mem hmem, toList_push, eraseDups_concat_of_not_mem hv, ht]
    have := runAll_intern_toList vs (l ++ [v]) (t.intern v).1 hstep
    simpa [runAll_cons, Call.run] using this

/-- From an empty table, interning hands out the distinct values as 1, 2, ... in the order they
are first seen. -/
theorem runAll_intern_empty (vs : List α) :
    (runAll (vs.map .intern) {}).1.toList = vs.eraseDups ∧
      (runAll (vs.map .intern) {}).2 = vs.map fun v => (vs.eraseDups.idxOf v + 1).toUInt32 := by
  have hlist : (runAll (vs.map .intern) {}).1.toList = vs.eraseDups :=
    runAll_intern_toList vs [] {} rfl
  -- each value is found at the index handed out for it, in a table listing `eraseDups`
  have hfound : List.Forall₂ (· = ·) (vs.map fun v => (vs.eraseDups.idxOf v + 1).toUInt32)
      (runAll (vs.map .intern) {}).2 := by
    have h := runAll_finds (vs.map .intern) {}
    rw [List.forall₂_map_left_iff] at h ⊢
    refine h.imp fun v i hv => ?_
    have hfind := hv v rfl
    have hmem : v ∈ (runAll (vs.map .intern) {}).1.toList := by
      rw [find?_eq_firstIndex?, Option.map_eq_some_iff] at hfind
      obtain ⟨k, hk, -⟩ := hfind
      exact firstIndex?_isSome.mp (by rw [hk]; rfl)
    rw [find?_eq_firstIndex?, firstIndex?_of_mem hmem, hlist, Option.map_some] at hfind
    exact UInt32.toNat_inj.mp (Option.some.inj hfind)
  exact ⟨hlist, (List.forall₂_eq_eq_eq ▸ hfound).symm⟩

/-- **A table keeps a first-occurrence index.** After any run of `intern` and `push` calls from
any table, the lookup map holds the first position of every value; while the table holds fewer
than 2^32 values `find?` gives the first index holding a value, and `get?` reads index `k` at
position `k - 1` for `1 ≤ k ≤ size` and gives nothing at 0 or past the size. Every call on every
table answers as `Call.Answers` says. A run only appends, and every index it hands out holds its
call's value in the table it leaves, an interned value being found there. Interning alone, from
an empty table, hands out the distinct values as 1, 2, ... in the order they are first seen; and
interning the same values again hands out the same indices and changes nothing. -/
theorem runAll_firstOccurrence (calls : List (Call α)) (t : Table α)
    (hs : (runAll calls t).1.size < 2 ^ 32) :
    let r := runAll calls t
    (∀ v, r.1.lookup.get? v = (r.1.toList.idxOf? v).map Nat.toUInt32) ∧
    (∀ v k, r.1.find? v = some k ↔ r.1.get? k = some v ∧ ∀ j < k, r.1.get? j ≠ some v) ∧
    (∀ k, (1 ≤ k → k ≤ r.1.size → r.1.get? k = r.1.toList[k - 1]?) ∧
      (k = 0 ∨ r.1.size < k → r.1.get? k = none)) ∧
    (∀ (c : Call α) (t₀ : Table α), c.Answers t₀ (c.run t₀).1 (c.run t₀).2) ∧
    t.Extends r.1 ∧
    List.Forall₂ (fun c i => r.1.get? i.toNat = some c.value ∧
      ∀ v, c = .intern v → r.1.find? v = some i.toNat) calls r.2 ∧
    (∀ vs : List α, (runAll (vs.map .intern) {}).1.toList = vs.eraseDups ∧
      (runAll (vs.map .intern) {}).2 = vs.map fun v => (vs.eraseDups.idxOf v + 1).toUInt32) ∧
    (∀ vs : List α, runAll (vs.map .intern) (runAll (vs.map .intern) t).1 =
      runAll (vs.map .intern) t) := by
  intro r
  refine ⟨lookup_get? r.1, fun v k => ?_, fun k => ⟨fun h1 _ => get?_of_pos h1, get?_eq_none_of⟩,
    Call.run_answers, runAll_extends calls t, runAll_holds calls t hs, runAll_intern_empty,
    fun vs => ?_⟩
  · rw [find?_eq_firstIndex?_of_lt hs]
    exact firstIndex?_eq_some_iff
  · have h := runAll_finds (vs.map .intern) t
    rw [List.forall₂_map_left_iff] at h
    exact runAll_intern_found (h.imp fun v _ hv => hv v rfl)

/-- a history interning 5, pushing 5 again and interning 7, on a table of numbers -/
theorem runAll_firstOccurrence_nat :
    LawfulBEq Nat ∧
    (runAll [.intern 5, .push 5, .intern 7] ({} : Table Nat)).1.size < 2 ^ 32 ∧
    let calls : List (Call Nat) := [.intern 5, .push 5, .intern 7]
    let r := runAll calls {}
    (∀ v, r.1.lookup.get? v = (r.1.toList.idxOf? v).map Nat.toUInt32) ∧
    (∀ v k, r.1.find? v = some k ↔ r.1.get? k = some v ∧ ∀ j < k, r.1.get? j ≠ some v) ∧
    (∀ k, (1 ≤ k → k ≤ r.1.size → r.1.get? k = r.1.toList[k - 1]?) ∧
      (k = 0 ∨ r.1.size < k → r.1.get? k = none)) ∧
    (∀ (c : Call Nat) (t₀ : Table Nat), c.Answers t₀ (c.run t₀).1 (c.run t₀).2) ∧
    ({} : Table Nat).Extends r.1 ∧
    List.Forall₂ (fun c i => r.1.get? i.toNat = some c.value ∧
      ∀ v, c = .intern v → r.1.find? v = some i.toNat) calls r.2 ∧
    (∀ vs : List Nat, (runAll (vs.map .intern) {}).1.toList = vs.eraseDups ∧
      (runAll (vs.map .intern) {}).2 = vs.map fun v => (vs.eraseDups.idxOf v + 1).toUInt32) ∧
    (∀ vs : List Nat, runAll (vs.map .intern) (runAll (vs.map .intern) {}).1 =
      runAll (vs.map .intern) {}) :=
  ⟨inferInstance, by decide, runAll_firstOccurrence [.intern 5, .push 5, .intern 7] {} (by decide)⟩

end Table

end AbcKit

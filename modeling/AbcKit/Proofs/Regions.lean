import AbcKit.Proofs.Landing
/-!
The exception table of a method body, as its try calls describe it.

`try_begin` opens a try region at the address current then; `catch_clauses_begin` ends its
protected range at the address current then; each `catch_clause` adds an entry for that range and
returns the entry's index; a region with a finally body gets, at `finally_clause_begin`, one more
entry, a catch-all with no type and no variable name, whose range runs from the region's start to
the address current then. Regions nest, and a call on a region concerns the innermost one open.
`Emitter.tryLedger` follows a run of calls, reading each with the address current at it and what
it returned, and records for every finished method body the entries its calls describe.

A body's table fits its code (`MethodBody.TableFits`) when each entry's range starts no later than
it ends, its handler starts after the range and within the code, all three addresses are
instruction boundaries of the code as it decodes, and no entry's range lies strictly within the
range of an entry before it: the handlers of an inner region come before those of the regions
around it.

While a method is written, `MethodState.Recorded` ties its code, try regions and exception table
to the record of its calls; every call that opens, closes or lands no try region keeps it
(`MethodState.Recorded.grow`).
-/
namespace AbcKit

/-- the protected range of `y` lies within that of `x` and is not the same range: it starts no
earlier and ends no later -/
def ExceptionEntry.StrictlyWithin (y x : ExceptionEntry) : Prop :=
  x.start ≤ y.start ∧ y.stop ≤ x.stop ∧ (y.start ≠ x.start ∨ y.stop ≠ x.stop)

instance : DecidableRel ExceptionEntry.StrictlyWithin := fun _ _ => by
  unfold ExceptionEntry.StrictlyWithin
  infer_instance

/-- The exception table of a body fits its code: each entry's range starts no later than it
ends, its handler starts after the range and within the code, the three addresses are
instruction boundaries of the code as it decodes (or its end), and no entry's range lies strictly
within the range of an entry before it. -/
structure MethodBody.TableFits (b : MethodBody) : Prop where
  ordered : ∀ x ∈ b.exceptions,
    x.start ≤ x.stop ∧ x.stop < x.target ∧ x.target.toNat ≤ b.code.length
  boundaries : ∃ L, Code.decode b.code = .ok L ∧ ∀ x ∈ b.exceptions,
    ∀ a ∈ [x.start, x.stop, x.target], a.toNat ∈ L.map Prod.fst ∨ a.toNat = b.code.length
  innermostFirst : b.exceptions.Pairwise fun x y => ¬ y.StrictlyWithin x

/-! ## Lists related elementwise -/

/-- a member on the right of lists related elementwise is related to one on the left -/
theorem List.Forall₂.exists_of_mem_right {α β : Type} {S : α → β → Prop} :
    ∀ {l : List α} {l' : List β}, List.Forall₂ S l l' → ∀ {b}, b ∈ l' → ∃ a ∈ l, S a b
  | _, _, .nil, _, h => by cases h
  | _, _, .cons hab h, _, hb => by
    rcases List.mem_cons.mp hb with rfl | hb
    · exact ⟨_, List.mem_cons_self, hab⟩
    · obtain ⟨a, ha, hab'⟩ := List.Forall₂.exists_of_mem_right h hb
      exact ⟨a, List.mem_cons_of_mem _ ha, hab'⟩

/-- a relation between lists, carried along lists related elementwise -/
theorem List.Forall₂.pairwise {α β : Type} {S : α → β → Prop} {r : α → α → Prop}
    {r' : β → β → Prop} (hr : ∀ a b a' b', S a a' → S b b' → r a b → r' a' b') :
    ∀ {l : List α} {l' : List β}, List.Forall₂ S l l' → l.Pairwise r → l'.Pairwise r'
  | _, _, .nil, _ => List.Pairwise.nil
  | _, _, .cons hab h, hp => by
    rw [List.pairwise_cons] at hp ⊢
    refine ⟨fun b' hb' => ?_, List.Forall₂.pairwise hr h hp.2⟩
    obtain ⟨b, hb, hbb'⟩ := List.Forall₂.exists_of_mem_right h hb'
    exact hr _ _ _ _ hab hbb' (hp.1 b hb)

/-- an entry of a table laid in code `c`: its range is ordered, its handler starts after it and
within the code, and all three addresses are boundaries of the code -/
structure ExceptionEntry.Placed (c : Buffer) (x : ExceptionEntry) : Prop where
  range : x.start.toNat ≤ x.stop.toNat
  handler : x.stop.toNat < x.target.toNat
  within : x.target.toNat ≤ c.size
  start : c.Boundary x.start.toNat
  stop : c.Boundary x.stop.toNat
  target : c.Boundary x.target.toNat

namespace Emit

/-! ## What the try calls describe -/

/-- a try region as its calls give it: the address current at its `try_begin`, the address
current at its `catch_clauses_begin` (its start until then), and whether it has a finally body -/
structure TryRecord where
  start : Nat
  stop : Nat
  hasFinally : Bool
deriving DecidableEq, Repr

/-- an entry of an exception table as its call gives it: the protected range, whether it is the
catch-all of a finally body, and what the call returned -/
structure EntryRecord where
  start : Nat
  stop : Nat
  catchAll : Bool
  reply : Reply
deriving DecidableEq, Repr

/-- the try regions open in a method, innermost last, and the entries its calls made -/
structure MethodRecord where
  regions : List TryRecord := []
  entries : List EntryRecord := []
deriving DecidableEq, Repr

/-- the record after call `c`, made at address `address`, which returned `r` -/
def MethodRecord.step (R : MethodRecord) (address : Nat) (c : Call) (r : Reply) : MethodRecord :=
  match c, R.regions.getLast? with
  | .tryBegin hasFinally, _ => { R with regions := R.regions ++ [⟨address, address, hasFinally⟩] }
  | .catchClausesBegin, _ =>
    { R with regions := R.regions.modify (R.regions.length - 1) fun t => { t with stop := address } }
  | .catchClause _ _, some t => { R with entries := R.entries ++ [⟨t.start, t.stop, false, r⟩] }
  | .catchClausesEnd, some t =>
    if t.hasFinally then R else { R with regions := R.regions.dropLast }
  | .finallyClauseBegin, some t =>
    { R with entries := R.entries ++ [⟨t.start, address, true, .none⟩] }
  | .finallyClauseEnd, _ => { R with regions := R.regions.dropLast }
  | _, _ => R

/-- the records of the open methods, innermost first, and the entries of each body finished -/
structure TryLedger where
  methods : List MethodRecord := []
  bodies : List (List EntryRecord) := []
deriving DecidableEq, Repr

/-- the ledger after call `c`, made at address `address`, which returned `r`: a method opens with
an empty record, and a finished method that has a body leaves its entries -/
def TryLedger.step (L : TryLedger) (address : Nat) (c : Call) (r : Reply) : TryLedger :=
  match c, L.methods with
  | .startMethod _, ms => { L with methods := {} :: ms }
  | .finishMethod f, R :: ms =>
    { methods := ms
      bodies := if !f.isNative && !f.isInterface then L.bodies ++ [R.entries] else L.bodies }
  | c, R :: ms => { L with methods := R.step address c r :: ms }
  | _, [] => L

/-- the address current at a call: where the next instruction of the innermost method goes, once
the position records pending for it are written -/
def Emitter.address (e : Emitter) : Nat :=
  match Emitter.flushPosition e with
  | .ok _ e' => Intent.position e'.methods.head?
  | .error _ _ => Intent.position e.methods.head?

/-- the ledger of a run of calls from `e`: each call read with the address current at it and what
it returned, up to the first call that fails -/
def Emitter.tryLedger : Emitter → List Call → TryLedger → TryLedger
  | _, [], L => L
  | e, c :: rest, L =>
    match Emitter.perform c e with
    | .ok r e' => Emitter.tryLedger e' rest (L.step e.address c r)
    | .error _ _ => L

/-- entry `x` of a table is as its record says: the same range, and neither a type nor a variable
name for a catch-all -/
def EntryRecord.Describes (E : EntryRecord) (x : ExceptionEntry) : Prop :=
  x.start.toNat = E.start ∧ x.stop.toNat = E.stop ∧
    (E.catchAll = true → x.excType = 0 ∧ x.varName = 0)

/-- the record of a try region gives its start, its end once its handlers have begun, and whether
it has a finally body -/
structure TryRecord.Describes (t : TryRecord) (b : HandlerBlock) : Prop where
  start : b.tryStart = t.start
  stop : b.state = .catches → b.tryEnd = t.stop
  hasFinally : b.hasFinally = t.hasFinally

/-- every clause entry of a record holds, as its call's reply, its own index -/
def MethodRecord.Replies (entries : List EntryRecord) : Prop :=
  ∀ (p : Nat) (E : EntryRecord), entries[p]? = some E → E.catchAll = false → E.reply = .number p

/-! ## The exception table while a method is written -/

/-- a try region laid in code `c`: its range is ordered, within the code and at boundaries of it,
and once its handlers have begun its range ends before the code does -/
structure HandlerBlock.Placed (c : Buffer) (b : HandlerBlock) : Prop where
  range : b.tryStart ≤ b.tryEnd
  within : b.tryEnd ≤ c.size
  start : c.Boundary b.tryStart
  stop : c.Boundary b.tryEnd
  catching : b.state = .catches → b.tryEnd < c.size

/-- While the handlers of region `b` are written, each entry of the table ends before its range
does, protects exactly its range, or starts after it: a handler added for `b` lies strictly within
no entry. -/
def HandlerBlock.Clear (table : List ExceptionEntry) (b : HandlerBlock) : Prop :=
  b.state = .catches → ∀ x ∈ table, x.stop.toNat < b.tryEnd ∨
    (x.start.toNat = b.tryStart ∧ x.stop.toNat = b.tryEnd) ∨ b.tryEnd < x.start.toNat

/-- the exception table and the try regions of a method whose code is below `2 ^ 32` bytes -/
structure MethodState.TableShape (m : MethodState) : Prop where
  entries : ∀ x ∈ m.exceptions, x.Placed m.code
  regions : ∀ b ∈ m.handlers, b.Placed m.code
  /-- a region opened while another one's handlers are written starts after that one's range -/
  nested : m.handlers.Pairwise fun b d => b.state = .catches → b.tryEnd < d.tryStart
  clear : ∀ b ∈ m.handlers, b.Clear m.exceptions
  innermostFirst : m.exceptions.Pairwise fun x y => ¬ y.StrictlyWithin x

/-- A method agrees with the record `R` of its try calls: it is strict and laid out, its try
regions are those of the record, and while its code is below `2 ^ 32` bytes its table has the
shape and the entries the record gives. -/
structure MethodState.Recorded (R : MethodRecord) (m : MethodState) : Prop where
  strict : m.strict = true
  laid : m.Laid
  regions : List.Forall₂ TryRecord.Describes R.regions m.handlers
  table : m.code.size < 2 ^ 32 →
    m.TableShape ∧ List.Forall₂ EntryRecord.Describes R.entries m.exceptions ∧
      MethodRecord.Replies R.entries

/-! ## Ranges in addresses -/

end Emit

namespace ExceptionEntry

variable {c c' : Buffer} {x y : ExceptionEntry}

theorem strictlyWithin_iff : y.StrictlyWithin x ↔ x.start.toNat ≤ y.start.toNat ∧
    y.stop.toNat ≤ x.stop.toNat ∧ (y.start.toNat ≠ x.start.toNat ∨ y.stop.toNat ≠ x.stop.toNat) := by
  simp only [StrictlyWithin, UInt32.le_iff_toNat_le, ne_eq, UInt32.toNat_inj]

theorem Placed.grow (h : x.Placed c) (hg : c.Grows c') : x.Placed c' :=
  ⟨h.range, h.handler, h.within.trans hg.size, hg.boundary _ h.start, hg.boundary _ h.stop,
    hg.boundary _ h.target⟩

end ExceptionEntry

/-- a list whose right side ends in `b` ends in a member related to `b` -/
theorem List.Forall₂.concat_right {α β : Type} {S : α → β → Prop} {l : List α} {l' : List β}
    {b : β} (h : List.Forall₂ S l (l' ++ [b])) :
    ∃ l₀ a, l = l₀ ++ [a] ∧ List.Forall₂ S l₀ l' ∧ S a b := by
  have hdrop := List.forall₂_drop_append l l' [b] h
  obtain ⟨a, ha⟩ : ∃ a, l.drop l'.length = [a] := by
    cases hd : l.drop l'.length with
    | nil => rw [hd] at hdrop; cases hdrop
    | cons a t => rw [hd] at hdrop; cases hdrop with | cons _ ht => cases ht; exact ⟨a, rfl⟩
  rw [ha] at hdrop
  refine ⟨l.take l'.length, a, ?_, List.forall₂_take_append l l' [b] h, ?_⟩
  · rw [← ha, List.take_append_drop]
  · cases hdrop with | cons hab _ => exact hab

namespace Emit

/-! ## Steps on the try regions keep the table -/

namespace HandlerBlock

/-- the same protected range, state and finally body: what the table and the record read of a
region -/
structure SameRange (b b' : HandlerBlock) : Prop where
  state : b'.state = b.state
  tryStart : b'.tryStart = b.tryStart
  tryEnd : b'.tryEnd = b.tryEnd
  hasFinally : b'.hasFinally = b.hasFinally

variable {c c' : Buffer} {b b' : HandlerBlock}

theorem SameRange.refl (b : HandlerBlock) : b.SameRange b := ⟨rfl, rfl, rfl, rfl⟩

theorem SameRegion.range (h : b.SameRegion b') : b.SameRange b' :=
  ⟨h.state, h.tryStart, h.tryEnd, h.hasFinally⟩

theorem Placed.grow (h : b.Placed c) (hg : c.Grows c') : b.Placed c' :=
  ⟨h.range, h.within.trans hg.size, hg.boundary _ h.start, hg.boundary _ h.stop,
    fun hs => (h.catching hs).trans_le hg.size⟩

theorem Placed.same (h : b.Placed c) (hb : b.SameRange b') : b'.Placed c := by
  obtain ⟨hst, hs, he, -⟩ := hb
  exact ⟨hs ▸ he ▸ h.range, he ▸ h.within, hs ▸ h.start, he ▸ h.stop,
    fun hc => he ▸ h.catching (hst ▸ hc)⟩

theorem Clear.same {table : List ExceptionEntry} (h : b.Clear table) (hb : b.SameRange b') :
    b'.Clear table := by
  obtain ⟨hst, hs, he, -⟩ := hb
  intro hc
  rw [hs, he]
  exact h (hst ▸ hc)

end HandlerBlock

theorem TryRecord.Describes.same {t : TryRecord} {b b' : HandlerBlock} (h : t.Describes b)
    (hb : b.SameRange b') : t.Describes b' :=
  ⟨hb.tryStart.trans h.start, fun hc => hb.tryEnd.trans (h.stop (hb.state ▸ hc)),
    hb.hasFinally.trans h.hasFinally⟩

theorem describes_same {ts : List TryRecord} {hs hs' : List HandlerBlock}
    (h : List.Forall₂ TryRecord.Describes ts hs) (hr : List.Forall₂ HandlerBlock.SameRange hs hs') :
    List.Forall₂ TryRecord.Describes ts hs' := by
  induction h generalizing hs' with
  | nil => cases hr; exact .nil
  | cons htb _ ih =>
    cases hr with
    | cons hb hr => exact .cons (htb.same hb) (ih hr)

/-- a clause entry appended with its index as reply keeps every clause entry's reply its index -/
theorem MethodRecord.replies_append {entries : List EntryRecord} {E : EntryRecord}
    (h : MethodRecord.Replies entries)
    (hE : E.catchAll = false → E.reply = .number entries.length) :
    MethodRecord.Replies (entries ++ [E]) := by
  intro p E' hp hc
  rcases Nat.lt_or_ge p entries.length with hlt | hge
  · rw [List.getElem?_append_left hlt] at hp
    exact h p E' hp hc
  · rw [List.getElem?_append_right hge, List.getElem?_singleton] at hp
    split at hp
    · cases hp
      rw [show p = entries.length by omega]
      exact hE hc
    · cases hp

namespace MethodState

variable {m m' : MethodState} {R : MethodRecord}

/-- The table keeps its shape while the code grows and the entries stay, when the regions left
are some of the old ones with the same ranges. -/
theorem TableShape.transport {hs : List HandlerBlock} (h : m.TableShape)
    (hsub : hs.Sublist m.handlers) (hr : List.Forall₂ HandlerBlock.SameRange hs m'.handlers)
    (hc : m.code.Grows m'.code) (he : m'.exceptions = m.exceptions) : m'.TableShape := by
  refine ⟨he ▸ fun x hx => (h.entries x hx).grow hc, fun b' hb' => ?_, ?_, fun b' hb' => ?_,
    he ▸ h.innermostFirst⟩
  · obtain ⟨b, hb, hbb'⟩ := List.Forall₂.exists_of_mem_right hr hb'
    exact ((h.regions b (hsub.subset hb)).same hbb').grow hc
  · refine List.Forall₂.pairwise (fun b d b' d' hb hd hbd hc' => ?_) hr (h.nested.sublist hsub)
    rw [hb.tryEnd, hd.tryStart]
    exact hbd (hb.state ▸ hc')
  · obtain ⟨b, hb, hbb'⟩ := List.Forall₂.exists_of_mem_right hr hb'
    exact he ▸ (h.clear b (hsub.subset hb)).same hbb'

theorem TableShape.grow (h : m.TableShape) (hg : m.Grows m') : m'.TableShape :=
  h.transport (List.Sublist.refl _) (hg.regions.imp fun _ _ hb => hb.range) hg.code hg.exceptions

/-- a region opened at the end of the code, around nothing yet -/
theorem TableShape.push {b : HandlerBlock} (h : m.TableShape)
    (hh : m'.handlers = m.handlers ++ [b]) (hc : m.code.Grows m'.code)
    (he : m'.exceptions = m.exceptions) (hb : b.Placed m'.code) (hstate : b.state = .protectedBody)
    (hstart : m.code.size ≤ b.tryStart) : m'.TableShape := by
  refine ⟨he ▸ fun x hx => (h.entries x hx).grow hc, fun d hd => ?_, ?_, fun d hd => ?_,
    he ▸ h.innermostFirst⟩
  · rw [hh, List.mem_append, List.mem_singleton] at hd
    rcases hd with hd | rfl
    · exact (h.regions d hd).grow hc
    · exact hb
  · rw [hh, List.pairwise_append]
    refine ⟨h.nested, List.pairwise_singleton _ _, fun d hd b' hb' hcatch => ?_⟩
    rw [List.mem_singleton.mp hb']
    exact ((h.regions d hd).catching hcatch).trans_le hstart
  · rw [hh, List.mem_append, List.mem_singleton] at hd
    rcases hd with hd | rfl
    · exact he ▸ h.clear d hd
    · intro hcatch
      rw [hstate] at hcatch
      cases hcatch

/-- The innermost region changes and entries are appended after the table. The regions around it
keep their ranges; the new entries lie after their ranges, since the innermost region opened after
them. -/
theorem TableShape.setLast {hs hs' : List HandlerBlock} {b b' : HandlerBlock}
    {ys : List ExceptionEntry} (h : m.TableShape) (hh : m.handlers = hs ++ [b])
    (hh' : m'.handlers = hs' ++ [b']) (hr : List.Forall₂ HandlerBlock.SameRange hs hs')
    (hc : m.code.Grows m'.code) (he : m'.exceptions = m.exceptions ++ ys)
    (hb : b'.Placed m'.code) (hstart : b'.tryStart = b.tryStart) (hclear : b'.Clear m'.exceptions)
    (hys : ∀ y ∈ ys, y.Placed m'.code ∧ b.tryStart ≤ y.start.toNat)
    (hpair : ys.Pairwise fun x y => ¬ y.StrictlyWithin x)
    (hnew : ∀ x ∈ m.exceptions, ∀ y ∈ ys, ¬ y.StrictlyWithin x) : m'.TableShape := by
  have hnested := h.nested
  rw [hh, List.pairwise_append] at hnested
  -- each outer region comes from one of the old ones, which ends before `b` starts
  have hout : ∀ d' ∈ hs', ∃ d ∈ hs, d.SameRange d' ∧ (d.state = .catches → d.tryEnd < b.tryStart) :=
    fun d' hd' =>
      let ⟨d, hd, hdd'⟩ := List.Forall₂.exists_of_mem_right hr hd'
      ⟨d, hd, hdd', hnested.2.2 d hd b (List.mem_singleton_self b)⟩
  have hmem : ∀ d ∈ hs, d ∈ m.handlers := fun d hd => hh ▸ List.mem_append_left _ hd
  refine ⟨fun x hx => ?_, fun d' hd' => ?_, ?_, fun d' hd' => ?_, ?_⟩
  · rw [he, List.mem_append] at hx
    rcases hx with hx | hx
    · exact (h.entries x hx).grow hc
    · exact (hys x hx).1
  · rw [hh', List.mem_append, List.mem_singleton] at hd'
    rcases hd' with hd' | rfl
    · obtain ⟨d, hd, hdd', -⟩ := hout d' hd'
      exact ((h.regions d (hmem d hd)).same hdd').grow hc
    · exact hb
  · rw [hh', List.pairwise_append]
    refine ⟨List.Forall₂.pairwise (fun d f d' f' hd hf hdf hc' => ?_) hr hnested.1,
      List.pairwise_singleton _ _, fun d' hd' f hf hcatch => ?_⟩
    · rw [hd.tryEnd, hf.tryStart]
      exact hdf (hd.state ▸ hc')
    · obtain ⟨d, -, hdd', hlt⟩ := hout d' hd'
      rw [List.mem_singleton.mp hf, hstart, hdd'.tryEnd]
      exact hlt (hdd'.state ▸ hcatch)
  · rw [hh', List.mem_append, List.mem_singleton] at hd'
    rcases hd' with hd' | rfl
    · obtain ⟨d, hd, hdd', hlt⟩ := hout d' hd'
      intro hcatch x hx
      rw [he, List.mem_append] at hx
      rcases hx with hx | hx
      · exact (h.clear d (hmem d hd)).same hdd' hcatch x hx
      · -- a new entry starts within `b`, after the outer range
        have := hlt (hdd'.state ▸ hcatch)
        have := (hys x hx).2
        right; right
        rw [hdd'.tryEnd]
        omega
    · exact hclear
  · rw [he, List.pairwise_append]
    exact ⟨h.innermostFirst, hpair, hnew⟩

/-- **A step that grows the code and keeps the exception table and the try regions keeps the
record**, as long as the method stays laid out. -/
theorem Recorded.grow (h : m.Recorded R) (hg : m.Grows m') (hl : m'.Laid) : m'.Recorded R := by
  refine ⟨hg.strict.trans h.strict, hl, describes_same h.regions (hg.regions.imp fun _ _ hb => hb.range),
    fun hsize => ?_⟩
  obtain ⟨hshape, hentries, hreplies⟩ := h.table (lt_of_le_of_lt hg.code.size hsize)
  exact ⟨hshape.grow hg, hg.exceptions ▸ hentries, hreplies⟩

end MethodState

end Emit

end AbcKit

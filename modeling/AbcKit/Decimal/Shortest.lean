/-!
Shortest decimal digits of a binary64 value, by exact arithmetic.

A finite positive value `m * 2^q` stands for the interval of reals that round to it: from halfway
to the neighbour below to halfway to the neighbour above, ends included exactly when `m` is even.
`shortest` returns the decimal with the fewest significant digits in that interval; when both
neighbours of the value on that digit grid lie in it, the nearer one, and on an exact tie the
upper one. `positional` writes a decimal without an exponent.
-/
namespace AbcKit.Decimal

/-- a finite positive binary64 value `m * 2^q` -/
structure Binary where
  m : Nat
  q : Int
  /-- the gap to the value below is half the gap to the value above -/
  narrowBelow : Bool

/-- the value of finite, nonzero bits (sign ignored) -/
def Binary.ofBits (b : UInt64) : Binary :=
  let e := ((b >>> 52) &&& 0x7FF).toNat
  let f := (b &&& 0xFFFFFFFFFFFFF).toNat
  if e == 0 then ⟨f, -1074, false⟩
  else ⟨0x10000000000000 + f, (e : Int) - 1075, f == 0 && e > 1⟩

/-- `digits * 10^exp` -/
structure Dec where
  digits : Nat
  exp : Int
deriving Repr, DecidableEq

/-- compare `a * 10^i` with `n * 2^j` exactly -/
def cmpScaled (a : Nat) (i : Int) (n : Nat) (j : Int) : Ordering :=
  compare (a * Nat.pow 10 i.toNat * Nat.pow 2 (-j).toNat)
    (n * Nat.pow 2 j.toNat * Nat.pow 10 (-i).toNat)

/-- whether `d` lies among the reals that round to `x` -/
def Binary.readsBack (x : Binary) (d : Dec) : Bool :=
  let lo := if x.narrowBelow then 4 * x.m - 1 else 4 * x.m - 2
  let hi := 4 * x.m + 2
  let incl := x.m % 2 == 0
  let cl := cmpScaled d.digits d.exp lo (x.q - 2)
  let ch := cmpScaled d.digits d.exp hi (x.q - 2)
  (cl == .gt || (incl && cl == .eq)) && (ch == .lt || (incl && ch == .eq))

/-- whether `10^k` exceeds the value -/
def Binary.below (x : Binary) (k : Int) : Bool := cmpScaled 1 k x.m x.q == .gt

/-- the least `k` with value `< 10^k`, found from an estimate by a few exact steps -/
def Binary.scale (x : Binary) : Int :=
  let est : Int := ((Nat.log2 x.m : Int) + x.q) * 30103 / 100000
  let up := fun (k : Int) => if x.below k then k else k + 1
  let down := fun (k : Int) => if x.below (k - 1) then k - 1 else k
  down (down (up (up est)))

/-- `⌊value / 10^p⌋` -/
def Binary.floorAt (x : Binary) (p : Int) : Nat :=
  x.m * Nat.pow 2 x.q.toNat * Nat.pow 10 (-p).toNat / (Nat.pow 2 (-x.q).toNat * Nat.pow 10 p.toNat)

/-- the decimal with its trailing zeros moved into the exponent -/
def Dec.normalize (d : Dec) : Dec :=
  if h : d.digits ≠ 0 ∧ d.digits % 10 = 0 then
    have : d.digits / 10 < d.digits := Nat.div_lt_self (Nat.pos_of_ne_zero h.1) (by decide)
    Dec.normalize ⟨d.digits / 10, d.exp + 1⟩
  else d
termination_by d.digits

/-- the choice on the grid `10^p`: the nearer of the value's two neighbours that read back,
the upper one on a tie -/
def Binary.pickAt (x : Binary) (p : Int) : Option Dec :=
  let lo := x.floorAt p
  let down : Dec := ⟨lo, p⟩
  let up : Dec := ⟨lo + 1, p⟩
  match x.readsBack down, x.readsBack up with
  | false, false => none
  | true, false => some down
  | false, true => some up
  | true, true =>
    -- twice the value against the sum of the two neighbours
    if cmpScaled (2 * lo + 1) p (2 * x.m) x.q == .gt then some down else some up

/-- search the grids of `n`, `n + 1`, ... significant digits, at most `fuel` of them -/
def Binary.search (x : Binary) (k : Int) : Nat → Nat → Option Dec
  | 0, _ => none
  | fuel + 1, n =>
    match x.pickAt (k - n) with
    | some d => some d
    | none => x.search k fuel (n + 1)

/-- the shortest decimal that reads back as `x`; the exact value if seventeen digits do not
suffice -/
def Binary.shortest (x : Binary) : Dec :=
  match x.search x.scale 17 1 with
  | some d => d.normalize
  | none =>
    if x.q ≥ 0 then Dec.normalize ⟨x.m * Nat.pow 2 x.q.toNat, 0⟩
    else Dec.normalize ⟨x.m * Nat.pow 5 (-x.q).toNat, x.q⟩

/-- `n` zeros -/
def zeros (n : Nat) : String := String.ofList (List.replicate n '0')

/-- a decimal written without an exponent: trailing zeros before the point, leading zeros after
it -/
def Dec.positional (d : Dec) : String :=
  let s := toString d.digits
  let n := s.length
  if d.exp ≥ 0 then s ++ zeros d.exp.toNat
  else
    let frac := d.exp.natAbs
    if frac < n then
      String.ofList (s.toList.take (n - frac)) ++ "." ++ String.ofList (s.toList.drop (n - frac))
    else "0." ++ zeros (frac - n) ++ s

end AbcKit.Decimal

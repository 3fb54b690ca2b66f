/-!
# Doubles

Binary floating-point numbers of double precision as exact quantities: a sign
and `mantissa * 2 ^ exponent`.

- `Double.round` — the nearest double to a fraction, a tie going to the even
  mantissa.
- `Double.shortest` — the fewest digits that read back as the same double, and
  of those the nearest to it.
- `Double.render` — these digits with a point, or with an exponent if they lie
  far from the point.
-/

namespace IndexSync

/-- A finite double.  The mantissa has at most 53 bits. -/
structure Double where
  negative : Bool
  mantissa : Nat
  exponent : Int
deriving DecidableEq, Inhabited

namespace Double

def zero : Double := { negative := false, mantissa := 0, exponent := 0 }

def negate (x : Double) : Double := { x with negative := !x.negative }

def isZero (x : Double) : Bool := x.mantissa = 0

/-! ## Exact arithmetic -/

/-- The fraction `num / den * 2 ^ e`. -/
def scaleTwo (num den : Nat) (e : Int) : Nat × Nat :=
  if 0 ≤ e then (num * Nat.pow 2 e.toNat, den) else (num, den * Nat.pow 2 (-e).toNat)

/-- The fraction `num / den * 10 ^ e`. -/
def scaleTen (num den : Nat) (e : Int) : Nat × Nat :=
  if 0 ≤ e then (num * Nat.pow 10 e.toNat, den) else (num, den * Nat.pow 10 (-e).toNat)

/-- The nearest whole number to a fraction, a tie going to the even one. -/
def nearest (num den : Nat) : Nat :=
  let q := num / den
  let r := num % den
  if 2 * r < den ∨ (2 * r = den ∧ q % 2 = 0) then q else q + 1

/-- The size of a double as a fraction. -/
def magnitude (x : Double) : Nat × Nat := scaleTwo x.mantissa 1 x.exponent

/-- The double nearest to `num / den`; nothing if that lies beyond all
doubles. -/
def round (num den : Nat) : Option Double :=
  if num = 0 then some zero
  else
    let low : Int := max (Int.ofNat num.log2 - Int.ofNat den.log2 - 53) (-1074)
    let (n, d) := scaleTwo num den (-low)
    let e := if n / d < Nat.pow 2 53 then low else low + 1
    let (n, d) := scaleTwo num den (-e)
    let m := nearest n d
    let (m, e) := if m = Nat.pow 2 53 then (Nat.pow 2 52, e + 1) else (m, e)
    if 971 < e then none else some { negative := false, mantissa := m, exponent := e }

/-- Ten to some power, rounded. -/
def powerOfTen (e : Nat) : Option Double := round (Nat.pow 10 e) 1

/-- `significand * 10 ^ exponent` in steps that are rounded one by one: the
significand, and a product with or quotients by powers of ten up to the
308th.  Quotients become zero after three steps at most. -/
def ofParts (significand : Nat) (exponent : Int) : Option Double := do
  go 4 (← round significand 1) exponent
where
  go : Nat → Double → Int → Option Double
    | 0, _, _ => some zero
    | steps + 1, x, exponent =>
      if exponent.natAbs ≤ 308 then do
        let p ← powerOfTen exponent.natAbs
        let (xn, xd) := x.magnitude
        let (pn, pd) := p.magnitude
        if 0 ≤ exponent then round (xn * pn) (xd * pd) else round (xn * pd) (xd * pn)
      else if x.isZero then some x
      else if 0 ≤ exponent then none
      else do
        let p ← powerOfTen 308
        let (xn, xd) := x.magnitude
        let (pn, pd) := p.magnitude
        go steps (← round (xn * pd) (xd * pn)) (exponent + 308)

/-! ## Shortest digits -/

/-- Whether `num / den` rounds to the double `x`, which is not zero. -/
def roundsTo (x : Double) (num den : Nat) : Bool :=
  (round num den).any fun y => y.mantissa = x.mantissa && y.exponent = x.exponent

/-- The power of ten of the leading digit of `num / den`. -/
def leadingPower (num den : Nat) : Int :=
  let digits (n : Nat) : Int := Int.ofNat (Nat.toDigits 10 n).length
  let guess := digits num - digits den
  let (n, d) := scaleTen num den (-guess)
  if d ≤ n then guess else guess - 1

/-- The value on the grid of `places` digits that is nearest to `num / den`, of
the two neighbours that round to `x`; as a whole number of units, and the power
of ten of the unit. -/
def onGrid? (x : Double) (num den : Nat) (places : Nat) : Option (Nat × Int) :=
  let unit := leadingPower num den - Int.ofNat places + 1
  let (n, d) := scaleTen num den (-unit)
  let q := n / d
  let reads (q : Nat) : Bool :=
    let (qn, qd) := scaleTen q 1 unit
    x.roundsTo qn qd
  let best := nearest n d
  let other := if best = q then q + 1 else q
  if reads best then some (best, unit)
  else if reads other then some (other, unit)
  else none

/-- The digits of a double that is not zero, and the power of ten of the first
one.  Seventeen digits always read back. -/
def shortest (x : Double) : List Char × Int :=
  let (num, den) := x.magnitude
  match (List.range 17).findSome? fun n => onGrid? x num den (n + 1) with
  | none => ([], 0)
  | some (units, power) =>
    let digits := Nat.toDigits 10 units
    let kept := (digits.reverse.dropWhile (· = '0')).reverse
    (kept, power + Int.ofNat digits.length - 1)

/-! ## Text -/

/-- The sign always, and as many digits as it takes. -/
def renderExponent (e : Int) : String :=
  (if e < 0 then "-" else "+") ++ toString e.natAbs

def zeros (n : Nat) : List Char := List.replicate n '0'

/-- Positional from `0.00001` up to sixteen digits before the point, and with
an exponent beyond. -/
def renderMagnitude (x : Double) : String :=
  if x.isZero then "0.0"
  else
    let (digits, power) := x.shortest
    if power < -5 ∨ 15 < power then
      let tail := digits.drop 1
      String.ofList (digits.take 1 ++ (if tail.isEmpty then [] else '.' :: tail)) ++
        "e" ++ renderExponent power
    else if power < 0 then
      String.ofList ('0' :: '.' :: zeros (power.natAbs - 1) ++ digits)
    else
      let whole := power.toNat + 1
      let tail := digits.drop whole
      String.ofList (digits.take whole ++ zeros (whole - digits.length) ++
        '.' :: (if tail.isEmpty then ['0'] else tail))

def render (x : Double) : String :=
  (if x.negative then "-" else "") ++ x.renderMagnitude

end Double

end IndexSync

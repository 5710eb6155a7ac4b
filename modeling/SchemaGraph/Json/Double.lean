import SchemaGraph.Json

/-!
This module contains the text of a double and the double of a decimal. A double is written with
the fewest digits that read back to it, the nearest of those, in positional notation as long as
its decimal exponent lies between -5 and 15. All arithmetic on the way to the digits is exact.
-/

namespace SchemaGraph

namespace Double

def negative (d : Double) : Bool :=
  d.bits.toNat >>> 63 = 1

def parts (d : Double) : Nat × Int :=
  let exponent : Nat := (d.bits.toNat >>> 52) % 2048
  let fraction : Nat := d.bits.toNat % (1 <<< 52)
  if exponent = 0 then (fraction, -1074) else (fraction + (1 <<< 52), (exponent : Int) - 1075)

def scale (n base : Nat) (e : Int) : Nat × Nat :=
  if 0 ≤ e then (n * base.pow e.toNat, 1) else (n, base.pow (-e).toNat)

def fractionLE (x y : Nat × Nat) : Bool :=
  x.1 * y.2 ≤ y.1 * x.2

def fractionLT (x y : Nat × Nat) : Bool :=
  x.1 * y.2 < y.1 * x.2

/--
The reals that round to a double: its value and the two ends of the interval, all three as
fractions. An end belongs to the interval exactly when the mantissa is even.
-/
structure Interval where
  lower : Nat × Nat
  value : Nat × Nat
  upper : Nat × Nat
  closed : Bool

def interval (d : Double) : Interval :=
  let (m, q) := d.parts
  let below := if m = 1 <<< 52 ∧ -1074 < q then 1 else 2
  { lower := scale (4 * m - below) 2 (q - 2)
    value := scale (4 * m) 2 (q - 2)
    upper := scale (4 * m + 2) 2 (q - 2)
    closed := m % 2 = 0 }

def Interval.contains (i : Interval) (x : Nat × Nat) : Bool :=
  if i.closed then fractionLE i.lower x && fractionLE x i.upper
  else fractionLT i.lower x && fractionLT x i.upper

def magnitude (x : Nat × Nat) : Int :=
  let exponents := (List.range 640).map (fun n : Nat => (n : Int) - 326)
  (exponents.find? (fun e => fractionLT x (scale 1 10 e))).getD 310

/--
The point of the grid of multiples of `10 ^ e` that lies in the interval and is nearest to its
value, if there is one; a tie goes to the even multiple.
-/
def Interval.nearest? (i : Interval) (e : Int) : Option Nat :=
  let (step, unit) := scale 1 10 e
  let floor := i.value.1 * unit / (i.value.2 * step)
  let point (n : Nat) : Nat × Nat := (n * step, unit)
  let inside (n : Nat) : Bool := i.contains (point n)
  if inside floor then
    if inside (floor + 1) then
      -- Twice the distance of the value above `floor`, compared with one step.
      let twice := 2 * (i.value.1 * unit - floor * (i.value.2 * step))
      let whole := i.value.2 * step
      if twice < whole ∨ (twice = whole ∧ floor % 2 = 0) then some floor else some (floor + 1)
    else some floor
  else if inside (floor + 1) then some (floor + 1)
  else none

def shortest (d : Double) : Nat × Int :=
  let i := d.interval
  let top := magnitude i.value
  let lengths := (List.range 18).map (fun n : Nat => (n : Int) + 1)
  let hits := lengths.filterMap fun k => (i.nearest? (top - k)).map fun n => (n, top - k)
  hits.headD (0, 0)

def significant (n : Nat) : List Char × Nat :=
  let digits := Nat.toDigits 10 n
  let kept := (digits.reverse.dropWhile (fun c => c = '0')).reverse
  (kept, digits.length - kept.length)

def layout (digits : List Char) (exponent : Int) : String :=
  if 0 ≤ exponent ∧ exponent ≤ 15 then
    let whole := exponent.toNat + 1
    let fraction := digits.drop whole
    let zeros := List.replicate (whole - digits.length) '0'
    String.ofList (digits.take whole ++ zeros ++ '.' :: (if fraction = [] then ['0'] else fraction))
  else if -5 ≤ exponent ∧ exponent < 0 then
    String.ofList ('0' :: '.' :: List.replicate ((-exponent).toNat - 1) '0' ++ digits)
  else
    let mantissa := match digits with
      | first :: second :: rest => first :: '.' :: second :: rest
      | few => few
    let sign := if 0 ≤ exponent then "+" else "-"
    String.ofList mantissa ++ "e" ++ sign ++ toString exponent.natAbs

def text (d : Double) : String :=
  let sign := if d.negative then "-" else ""
  let magnitude :=
    if d.parts.1 = 0 then "0.0" else
      let (n, e) := d.shortest
      let (digits, zeros) := significant n
      layout digits (e + zeros + digits.length - 1)
  sign ++ magnitude

example : (Double.mk 0x3FF0000000000000).text = "1.0" := by decide +kernel

example : (Double.mk 0x430C6BF526340000).text = "1000000000000000.0" := by decide +kernel

example : (Double.mk 0x4341C37937E08000).text = "1e+16" := by decide +kernel

example : (Double.mk 0x0000000000000001).text = "5e-324" := by decide +kernel

def ofFloat (x : Float) : Double :=
  ⟨x.toBits⟩

/--
The value `x * 10 ^ exponent`, computed by one rounded product or quotient with a power of ten that
is itself a double. A power beyond the range of doubles is split off in front. There is no value
when the result is too large.
-/
def scaleByTen? : Nat → Float → Int → Option Float
  | 0, x, _ => some x
  | steps + 1, x, exponent =>
    if exponent.natAbs ≤ 308 then
      let power := Float.ofScientific 1 false exponent.natAbs
      if 0 ≤ exponent then
        let product := x * power
        if product.isInf then none else some product
      else some (x / power)
    else if x == 0.0 then some x
    else if 0 ≤ exponent then none
    else scaleByTen? steps (x / Float.ofScientific 1 false 308) (exponent + 308)

def ofDecimal? (isNegative : Bool) (significand : Nat) (exponent : Int) : Option Double :=
  (scaleByTen? 8 (Float.ofNat significand) exponent).map fun x =>
    ofFloat (if isNegative then -x else x)

end Double

end SchemaGraph

import Mathlib.Algebra.Group.Int.Defs
import Mathlib.Algebra.Group.Nat.Defs
import Mathlib.Logic.Function.Iterate

/-! The software floating point of fp-bit-base.c, compiled once for `float` and once for `double`:
numbers are unpacked into class, sign, exponent and fraction, added or multiplied with some guard
bits, and rounded when they are packed again. -/
namespace AgbTools
namespace SoftFloat

section Format

/-- The two formats; `double` is the one without `FLOAT`. -/
inductive Format
  | float | double
deriving DecidableEq, Repr

namespace Format

def ngards : Format → ℕ
  | .float => 7
  | .double => 8

def gardRound : Format → ℕ
  | .float => 0x3f
  | .double => 0x7f

def gardMask : Format → ℕ
  | .float => 0x7f
  | .double => 0xff

def gardMsb : Format → ℕ
  | .float => 0x40
  | .double => 0x80

def expBits : Format → ℕ
  | .float => 8
  | .double => 11

def expBias : Format → ℕ
  | .float => 127
  | .double => 1023

def fracBits : Format → ℕ
  | .float => 23
  | .double => 52

def expMax : Format → ℕ
  | .float => 0xff
  | .double => 0x7ff

def quietNan : Format → ℕ
  | .float => 0x100000
  | .double => 0x8000000000000

/-- The bits of a `fractype`. -/
def fracNBits : Format → ℕ
  | .float => 32
  | .double => 64

def fracHigh : Format → ℕ
  | .float => 0x80000000
  | .double => 0x8000000000000000

def normalExpMin (F : Format) : ℤ := -(F.expBias : ℤ)+1

def implicit1 (F : Format) : ℕ := 1 <<< (F.fracBits+F.ngards)

def implicit2 (F : Format) : ℕ := 1 <<< (F.fracBits+1+F.ngards)

/-- What is left of a number in a `fractype`. -/
def trunc (F : Format) (x : ℕ) : ℕ := x%2^F.fracNBits

end Format

end Format

section Types

inductive FpClass
  | snan | qnan | zero | number | infinity
deriving DecidableEq, Repr

/-- `fp_number_type`. -/
structure FpNumber where
  cls : FpClass
  sign : Bool
  normalExp : ℤ
  fraction : ℕ
deriving DecidableEq, Repr

/-- `FLO_type`, by the bits of its `value_raw`. -/
def Flo (F : Format) : Type := BitVec F.fracNBits

instance (F : Format) : DecidableEq (Flo F) := inferInstanceAs (DecidableEq (BitVec F.fracNBits))

def swapWords (x : ℕ) : ℕ := x%2^32*2^32+x/2^32

/-- The words of a `double` are stored with the high one first. -/
def Format.wordOrder : Format → ℕ → ℕ
  | .float => id
  | .double => swapWords

/-- `nan ()` returns a static object that nobody writes to. -/
def nan : FpNumber := { cls := .snan, sign := false, normalExp := 0, fraction := 0 }

def isnan (x : FpNumber) : Bool := decide (x.cls = .snan) || decide (x.cls = .qnan)

def isinf (x : FpNumber) : Bool := decide (x.cls = .infinity)

def iszero (x : FpNumber) : Bool := decide (x.cls = .zero)

def lshift (a : ℕ) : ℕ := (a &&& 1) ||| (a >>> 1)

end Types

section Pack

variable (F : Format)

/-- The guard bits are rounded away: half way to even, else by adding just less than a half. -/
def roundGards (fraction : ℕ) : ℕ :=
  if fraction &&& F.gardMask = F.gardMsb then
    if fraction &&& (1 <<< F.ngards) ≠ 0 then F.trunc (fraction+(F.gardRound+1)) else fraction
  else F.trunc (fraction+F.gardRound)

/-- The fraction and the exponent that `pack_d` stores. -/
def packParts (src : FpNumber) : ℕ × ℤ :=
  if isnan src then (src.fraction ||| F.quietNan,F.expMax)
  else if isinf src then (0,F.expMax)
  else if iszero src then (0,0)
  else if src.fraction = 0 then (src.fraction,0)
  else if src.normalExp < F.normalExpMin then
    let shift := (F.normalExpMin-src.normalExp).toNat
    let fraction := if F.fracNBits-F.ngards < shift then 0 else src.fraction >>> shift
    (fraction >>> F.ngards,0)
  else if (F.expBias : ℤ) < src.normalExp then (0,F.expMax)
  else
    let exp := src.normalExp+F.expBias
    let fraction := roundGards F src.fraction
    if F.implicit2 ≤ fraction then ((fraction >>> 1) >>> F.ngards,exp+1)
    else (fraction >>> F.ngards,exp)

/-- The bit-fields of a number, the fraction lowest. -/
def fields (fraction : ℕ) (exp : ℤ) (sign : Bool) : ℕ :=
  fraction%2^F.fracBits+(exp%2^F.expBits).toNat*2^F.fracBits+
    sign.toNat*2^(F.fracBits+F.expBits)

def packD (src : FpNumber) : Flo F :=
  BitVec.ofNat F.fracNBits
    (F.wordOrder (fields F (packParts F src).1 (packParts F src).2 src.sign))

/-- A denormalized fraction is shifted until it gets a leading one. -/
def unpackLoop : ℕ → ℕ → ℤ → ℕ × ℤ
  | 0, fraction, exp => (fraction,exp)
  | n+1, fraction, exp =>
    if fraction < F.implicit1 then unpackLoop n (F.trunc (fraction <<< 1)) (exp-1)
    else (fraction,exp)

/-- `unpack_d`; of a zero or an infinity the exponent and the fraction stay as they were in `dst`. -/
def unpackD (src : Flo F) (dst : FpNumber) : FpNumber :=
  let raw := F.wordOrder (BitVec.toNat src)
  let fraction := raw%2^F.fracBits
  let exp := raw/2^F.fracBits%2^F.expBits
  let sign := decide (raw/2^(F.fracBits+F.expBits)%2 = 1)
  if exp = 0 then
    if fraction = 0 then { dst with sign := sign, cls := .zero }
    else
      let shifted := unpackLoop F F.fracNBits (F.trunc (fraction <<< F.ngards))
        ((exp : ℤ)-F.expBias+1)
      { cls := .number, sign := sign, normalExp := shifted.2, fraction := shifted.1 }
  else if exp = F.expMax then
    if fraction = 0 then { dst with sign := sign, cls := .infinity }
    else
      { dst with
        sign := sign
        cls := if fraction &&& F.quietNan ≠ 0 then .qnan else .snan
        fraction := fraction }
  else
    { cls := .number
      sign := sign
      normalExp := (exp : ℤ)-F.expBias
      fraction := F.trunc (fraction <<< F.ngards) ||| F.implicit1 }

end Pack

section Add

variable (F : Format)

/-- The fraction with the smaller exponent is shifted one bit for each step of its exponent, or is
dropped when it is too far off; the common exponent and both fractions. -/
def alignParts (a b : FpNumber) : ℤ × ℕ × ℕ :=
  if (a.normalExp-b.normalExp).natAbs < F.fracNBits then
    (max a.normalExp b.normalExp,lshift^[(b.normalExp-a.normalExp).toNat] a.fraction,
      lshift^[(a.normalExp-b.normalExp).toNat] b.fraction)
  else if b.normalExp < a.normalExp then (a.normalExp,a.fraction,0)
  else (b.normalExp,0,b.fraction)

/-- An `intfrac` from the bits of a `fractype`. -/
def Format.signed (x : ℕ) : ℤ :=
  if F.trunc x < 2^(F.fracNBits-1) then F.trunc x else (F.trunc x : ℤ)-2^F.fracNBits

def addLoop : ℕ → ℕ → ℤ → ℕ × ℤ
  | 0, fraction, exp => (fraction,exp)
  | n+1, fraction, exp =>
    if fraction < F.implicit1 ∧ fraction ≠ 0 then addLoop n (F.trunc (fraction <<< 1)) (exp-1)
    else (fraction,exp)

/-- The difference of the fractions, by sign and magnitude and renormalized. -/
def subFractions (asign : Bool) (exp : ℤ) (fa fb : ℕ) : Bool × ℕ × ℤ :=
  let tfraction := if asign then F.signed (2^F.fracNBits-fa+fb) else F.signed (fa+(2^F.fracNBits-fb))
  if 0 ≤ tfraction then (false,addLoop F F.fracNBits (F.trunc tfraction.toNat) exp)
  else (true,addLoop F F.fracNBits (F.trunc (-tfraction).toNat) exp)

/-- A sum that has outgrown its place is shifted down. -/
def shiftDown (sign : Bool) (fraction : ℕ) (exp : ℤ) : FpNumber :=
  if F.implicit2 ≤ fraction then
    { cls := .number, sign := sign, normalExp := exp+1, fraction := lshift fraction }
  else { cls := .number, sign := sign, normalExp := exp, fraction := fraction }

/-- What `_fpadd_parts` does with two numbers. -/
def addNumbers (a b : FpNumber) : FpNumber :=
  let (exp,fa,fb) := alignParts F a b
  if a.sign ≠ b.sign then
    let (sign,fraction,exp) := subFractions F a.sign exp fa fb
    shiftDown F sign fraction exp
  else shiftDown F a.sign (F.trunc (fa+fb)) exp

def fpaddParts (a b : FpNumber) : FpNumber :=
  if isnan a then a
  else if isnan b then b
  else if isinf a then
    if isinf b ∧ a.sign ≠ b.sign then nan else a
  else if isinf b then b
  else if iszero b then
    if iszero a then { a with sign := a.sign && b.sign } else a
  else if iszero a then b
  else addNumbers F a b

/-- `add`; `a` and `b` are what its local numbers hold before they are set. -/
def add (a b : FpNumber) (x y : Flo F) : Flo F :=
  packD F (fpaddParts F (unpackD F x a) (unpackD F y b))

def sub (a b : FpNumber) (x y : Flo F) : Flo F :=
  let b := unpackD F y b
  packD F (fpaddParts F (unpackD F x a) { b with sign := !b.sign })

end Add

section Multiply

variable (F : Format)

/-- The 64-bit product of two `float` fractions. -/
def productFloat (a b : ℕ) : ℕ × ℕ :=
  let answer := a*b%2^64
  (answer/2^32%2^32,answer%2^32)

/-- The 128-bit product of two `double` fractions from four partial products. -/
def productDouble (a b : ℕ) : ℕ × ℕ :=
  let nl := a &&& 0xffffffff
  let nh := a >>> 32
  let ml := b &&& 0xffffffff
  let mh := b >>> 32
  let ppll := ml*nl%2^64
  let pphl := mh*nl%2^64
  let pplh := ml*nh%2^64
  let pphh := mh*nh%2^64
  let pshh := (pphl+pplh)%2^64
  let res2 := if pshh < pphl then 0x100000000 else 0
  let pphl := (pshh <<< 32)%2^64 &&& 0xffffffff00000000
  let res0 := (ppll+pphl)%2^64
  let res2 := if res0 < ppll then (res2+1)%2^64 else res2
  let res2 := (res2+((((pshh >>> 32) &&& 0xffffffff)+pphh)%2^64))%2^64
  (res2,res0)

/-- The high and the low half of a product. -/
def Format.product : Format → ℕ → ℕ → ℕ × ℕ
  | .float => productFloat
  | .double => productDouble

/-- What the exponent of a product is corrected by. -/
def Format.productExp : Format → ℤ
  | .float => 2
  | .double => 4

def mulDown : ℕ → ℕ → ℕ → ℤ → ℕ × ℕ × ℤ
  | 0, high, low, exp => (high,low,exp)
  | n+1, high, low, exp =>
    if F.implicit2 ≤ high then
      mulDown n (high >>> 1) (if high &&& 1 ≠ 0 then (low >>> 1) ||| F.fracHigh else low) (exp+1)
    else (high,low,exp)

def mulUp : ℕ → ℕ → ℕ → ℤ → ℕ × ℕ × ℤ
  | 0, high, low, exp => (high,low,exp)
  | n+1, high, low, exp =>
    if high < F.implicit1 then
      mulUp n (if low &&& F.fracHigh ≠ 0 then F.trunc (high <<< 1) ||| 1 else F.trunc (high <<< 1))
        (F.trunc (low <<< 1)) (exp-1)
    else (high,low,exp)

/-- A product or a quotient that looks half way between two numbers is rounded while its low half, or
the remainder, is known. -/
def roundHalf (high low : ℕ) : ℕ :=
  if high &&& F.gardMask = F.gardMsb then
    if high &&& (1 <<< F.ngards) ≠ 0 then F.trunc (high+(F.gardRound+1))
    else if low ≠ 0 then F.trunc (high+(F.gardRound+1))
    else high
  else high

/-- What `_fpmul_parts` does with two numbers. -/
def mulNumbers (a b : FpNumber) : FpNumber :=
  let (high,low) := F.product a.fraction b.fraction
  let exp := a.normalExp+b.normalExp+F.productExp
  let (high,low,exp) := mulDown F F.fracNBits high low exp
  let (high,low,exp) := mulUp F F.fracNBits high low exp
  { cls := .number, sign := a.sign != b.sign, normalExp := exp, fraction := roundHalf F high low }

def fpmulParts (a b : FpNumber) : FpNumber :=
  if isnan a then { a with sign := a.sign != b.sign }
  else if isnan b then { b with sign := a.sign != b.sign }
  else if isinf a then
    if iszero b then nan else { a with sign := a.sign != b.sign }
  else if isinf b then
    if iszero a then nan else { b with sign := a.sign != b.sign }
  else if iszero a then { a with sign := a.sign != b.sign }
  else if iszero b then { b with sign := a.sign != b.sign }
  else mulNumbers F a b

def multiply (a b : FpNumber) (x y : Flo F) : Flo F :=
  packD F (fpmulParts F (unpackD F x a) (unpackD F y b))

end Multiply

section Divide

variable (F : Format)

structure DivState where
  bit : ℕ
  numerator : ℕ
  quotient : ℕ
deriving DecidableEq, Repr

/-- The numerator after the comparison with the denominator. -/
def DivState.reduced (s : DivState) (denominator : ℕ) : ℕ :=
  if denominator ≤ s.numerator then s.numerator-denominator else s.numerator

/-- One round of the bit loop. -/
def divStep (denominator : ℕ) (s : DivState) : DivState :=
  { bit := s.bit >>> 1
    numerator := F.trunc (s.reduced denominator*2)
    quotient := if denominator ≤ s.numerator then s.quotient ||| s.bit else s.quotient }

def divLoop (denominator : ℕ) : ℕ → DivState → DivState
  | 0, s => s
  | n+1, s => if s.bit = 0 then s else divLoop denominator n (divStep F denominator s)

/-- The loop's first state, and the exponent that goes with it: a numerator that is smaller than the
denominator is doubled. -/
def divStart (a b : FpNumber) : DivState × ℤ :=
  if a.fraction < b.fraction then
    ({ bit := F.implicit1, numerator := F.trunc (a.fraction*2), quotient := 0 },
      a.normalExp-b.normalExp-1)
  else
    ({ bit := F.implicit1, numerator := a.fraction, quotient := 0 },a.normalExp-b.normalExp)

/-- What `_fpdiv_parts` does with two numbers. -/
def divNumbers (a b : FpNumber) : FpNumber :=
  let (s,exp) := divStart F a b
  let s := divLoop F b.fraction F.fracNBits s
  { a with
    sign := a.sign != b.sign
    normalExp := exp
    fraction := roundHalf F s.quotient s.numerator }

def fpdivParts (a b : FpNumber) : FpNumber :=
  if isnan a then a
  else if isnan b then b
  else if isinf a || iszero a then
    if a.cls = b.cls then nan else { a with sign := a.sign != b.sign }
  else if isinf b then { a with sign := a.sign != b.sign, fraction := 0, normalExp := 0 }
  else if iszero b then { a with sign := a.sign != b.sign, cls := .infinity }
  else divNumbers F a b

def divide (a b : FpNumber) (x y : Flo F) : Flo F :=
  packD F (fpdivParts F (unpackD F x a) (unpackD F y b))

end Divide

section Compare

variable (F : Format)

def negate (a : FpNumber) (x : Flo F) : Flo F :=
  let a := unpackD F x a
  packD F { a with sign := !a.sign }

/-- `__fpcmp_parts`; a comparison with a NaN counts as greater. -/
def fpcmpParts (a b : FpNumber) : ℤ :=
  if isnan a || isnan b then 1
  else if isinf a && isinf b then (b.sign.toNat : ℤ)-a.sign.toNat
  else if isinf a then if a.sign then -1 else 1
  else if isinf b then if b.sign then 1 else -1
  else if iszero a && iszero b then 0
  else if iszero a then if b.sign then 1 else -1
  else if iszero b then if a.sign then -1 else 1
  else if a.sign ≠ b.sign then if a.sign then -1 else 1
  else if b.normalExp < a.normalExp then if a.sign then -1 else 1
  else if a.normalExp < b.normalExp then if a.sign then 1 else -1
  else if b.fraction < a.fraction then if a.sign then -1 else 1
  else if a.fraction < b.fraction then if a.sign then 1 else -1
  else 0

def compare (a b : FpNumber) (x y : Flo F) : ℤ := fpcmpParts (unpackD F x a) (unpackD F y b)

/-- The routine of one predicate: its answer for a NaN is one that its caller takes as it should. -/
def predicate (unordered : ℤ) (a b : FpNumber) (x y : Flo F) : ℤ :=
  if isnan (unpackD F x a) || isnan (unpackD F y b) then unordered
  else fpcmpParts (unpackD F x a) (unpackD F y b)

def eqF2 : FpNumber → FpNumber → Flo F → Flo F → ℤ := predicate F 1

def neF2 : FpNumber → FpNumber → Flo F → Flo F → ℤ := predicate F 1

def gtF2 : FpNumber → FpNumber → Flo F → Flo F → ℤ := predicate F (-1)

def geF2 : FpNumber → FpNumber → Flo F → Flo F → ℤ := predicate F (-1)

def ltF2 : FpNumber → FpNumber → Flo F → Flo F → ℤ := predicate F 1

def leF2 : FpNumber → FpNumber → Flo F → Flo F → ℤ := predicate F 1

end Compare

section Convert

variable (F : Format)

/-- The pattern of a constant, by its sign and its exponent and fraction fields. -/
def pattern (sign : Bool) (magnitude : ℕ) : Flo F :=
  BitVec.ofNat F.fracNBits (F.wordOrder (magnitude+2^(F.fracBits+F.expBits)*sign.toNat))

/-- The constant 2147483648.0 or its negative. -/
def twoPow31 (sign : Bool) : Flo F := pattern F sign ((F.expBias+31)*2^F.fracBits)

/-- `si_to_float`; the smallest integer has no positive counterpart. -/
def siToFloat (dst : FpNumber) (arg : BitVec 32) : Flo F :=
  if arg = 0 then packD F { dst with cls := .zero, sign := decide (arg.toInt < 0) }
  else if arg.toInt < 0 ∧ arg = 0x80000000#32 then twoPow31 F true
  else
    let fraction := if arg.toInt < 0 then (-arg).toNat else arg.toNat
    let shifted := unpackLoop F F.fracNBits fraction ((F.fracBits+F.ngards : ℕ) : ℤ)
    packD F
      { cls := .number
        sign := decide (arg.toInt < 0)
        normalExp := shifted.2
        fraction := shifted.1 }

def maxSiInt : ℤ := 2^31-1

/-- `float_to_si`. -/
def floatToSi (a : FpNumber) (x : Flo F) : ℤ :=
  let a := unpackD F x a
  if iszero a then 0
  else if isnan a then 0
  else if isinf a then if a.sign then -maxSiInt-1 else maxSiInt
  else if a.normalExp < 0 then 0
  else if 30 < a.normalExp then if a.sign then -maxSiInt-1 else maxSiInt
  else
    let tmp := (BitVec.ofNat 32
      (a.fraction >>> (((F.fracBits+F.ngards : ℕ) : ℤ)-a.normalExp).toNat)).toInt
    if a.sign then -tmp else tmp

/-- The places between the leading ones of a `float` and a `double` fraction. -/
def fDBitoff : ℕ := 52+8-(23+7)

def sfToDf (a : FpNumber) (x : Flo .float) : Flo .double :=
  let a := unpackD .float x a
  packD .double { a with fraction := Format.double.trunc (a.fraction <<< fDBitoff) }

/-- `df_to_sf`; the lowest guard bit is set if any bits are lost. -/
def dfToSf (a : FpNumber) (x : Flo .double) : Flo .float :=
  let a := unpackD .double x a
  let sffrac := Format.float.trunc (a.fraction >>> fDBitoff)
  let sffrac := if a.fraction &&& ((1 <<< fDBitoff)-1) ≠ 0 then sffrac ||| 1 else sffrac
  packD .float { a with fraction := sffrac }

end Convert

end SoftFloat
end AgbTools

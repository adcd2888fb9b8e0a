import Argumentation.Decimal.Shortest

namespace Argumentation

structure FloatLayout where
  tie : Tie
  plain : Int → Bool
  wholePoint : Bool

namespace FloatLayout

def zeros (n : Nat) : List Char :=
  List.replicate n '0'

def plainText (layout : FloatLayout) (ds : List Char) (leading : Int) : List Char :=
  if leading < 0 then '0' :: '.' :: zeros (-leading - 1).toNat ++ ds
  else
    let whole := leading.toNat + 1
    if ds.length ≤ whole then
      ds ++ zeros (whole - ds.length) ++ if layout.wholePoint then ['.', '0'] else []
    else ds.take whole ++ '.' :: ds.drop whole

def exponentText (ds : List Char) (leading : Int) : List Char :=
  let fraction := ds.drop 1
  let point := if fraction.isEmpty then [] else '.' :: fraction
  ds.take 1 ++ point ++ 'e' :: (toString leading).toList

def magnitudeText (layout : FloatLayout) (bits : Nat) : List Char :=
  if bits = 0 then layout.plainText ['0'] 0
  else
    let d := Decimal.shortest layout.tie (.ofBits bits)
    if layout.plain d.leading then layout.plainText d.digits d.leading
    else exponentText d.digits d.leading

def bitsText (layout : FloatLayout) (bits : Nat) : String :=
  let magnitude := bits % Decimal.signBit
  if Decimal.infinityBits < magnitude then "NaN"
  else
    let body :=
      if magnitude = Decimal.infinityBits then "inf".toList else layout.magnitudeText magnitude
    String.ofList (if Decimal.signBit ≤ bits then '-' :: body else body)

def text (layout : FloatLayout) (x : Float) : String :=
  layout.bitsText x.toBits.toNat

def term : FloatLayout where
  tie := .up
  plain e := -4 ≤ e && e < 16
  wholePoint := true

def degree : FloatLayout where
  tie := .up
  plain _ := true
  wholePoint := false

def report : FloatLayout where
  tie := .toEven
  plain e := -5 ≤ e && e < 16
  wholePoint := true

def settings : FloatLayout where
  tie := .up
  plain _ := true
  wholePoint := true

def fixedText (places : Nat) (x : Magnitude) : String :=
  let r := Ratio.scale x.ratio 10 places
  let ds := Nat.toDigits 10 (roundDiv .toEven r.num r.den)
  let padded := zeros (places + 1 - ds.length) ++ ds
  let whole := padded.length - places
  String.ofList (padded.take whole ++ '.' :: padded.drop whole)

end FloatLayout

end Argumentation

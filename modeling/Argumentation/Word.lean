namespace Argumentation

def isInt64 (n : Int) : Bool :=
  -0x8000000000000000 ≤ n && n < 0x8000000000000000

def isNat64 (n : Nat) : Bool :=
  n < 0x10000000000000000

end Argumentation

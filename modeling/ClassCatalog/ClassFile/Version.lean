/-! The class file versions that are read.

A version is compared by its major number first, but both numbers are folded into one
decimal, the minor number below the thousands. Some major numbers pass in any case. -/
namespace ClassCatalog.ClassFile.Version

def magic : UInt32 := 0xCAFEBABE

def minMajor : Nat := 45
def minMinor : Nat := 3
def maxMajor : Nat := 69

def alwaysRead : List Nat := [49, 50, 51]

def fold (major minor : Nat) : Nat := major * 1000 + minor

def supported (major minor : UInt16) : Bool :=
  (major.toNat ≤ maxMajor && fold minMajor minMinor ≤ fold major.toNat minor.toNat) ||
    alwaysRead.contains major.toNat

end ClassCatalog.ClassFile.Version

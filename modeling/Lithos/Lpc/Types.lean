/-
The vocabulary the models of `lib/lpc` share: runtime types of an svalue (`types.h`), the runtime limits of the
configuration file (`rc.cpp`), and the 16-bit arithmetic of the `unsigned short` counters.
-/
import Mathlib.Tactic

namespace Lithos.Lpc

/-- a `char` of the driver -/
abbrev Byte := UInt8

/-- runtime type of an svalue: the single-bit values of `svalue_type_t` -/
inductive SvType where
  | number
  | string
  | real
  | array
  | object
  | mapping
  | function
  | buffer
  | class_
deriving DecidableEq, Repr

/-- the limits of the configuration that the models read (`CONFIG_INT`) -/
structure Config where
  maxArraySize : ℕ
  maxMappingSize : ℕ
  maxStringLength : ℕ
deriving DecidableEq, Repr

/-- the defaults of `rc.cpp` -/
def Config.default : Config := ⟨15000, 15000, 200000⟩

/-- conversion to `unsigned short` -/
def ushort (n : ℕ) : ℕ := n % 65536

/-- `--u` on an `unsigned short`: 0 wraps to 65535 -/
def decUshort (u : ℕ) : ℕ := ushort (u + 65535)

theorem ushort_of_lt {n : ℕ} (h : n < 65536) : ushort n = n := Nat.mod_eq_of_lt h

theorem decUshort_of_pos {u : ℕ} (h : 0 < u) (hu : u < 65536) : decUshort u = u - 1 := by
  unfold decUshort ushort; omega

end Lithos.Lpc

import OcamlRpi.Printf.Format

namespace OcamlRpi.Stdlib

open Printf (byte)

def LONG_MAX : ℤ := 2147483647

def LONG_MIN : ℤ := -2147483648

inductive Errno where
  | EINVAL
  | ERANGE
deriving DecidableEq

/-- Form feed, newline, carriage return, both tabs and the blank. -/
def isspace (c : UInt8) : Bool := c ∈ [12, 10, 13, 9, 11, 32]

def digit (c : UInt8) : ℕ :=
  if '0'.toUInt8 ≤ c ∧ c ≤ '9'.toUInt8 then (c - '0'.toUInt8).toNat
  else if 'A'.toUInt8 ≤ c ∧ c ≤ 'Z'.toUInt8 then (c - 'A'.toUInt8).toNat + 16
  else if 'a'.toUInt8 ≤ c ∧ c ≤ 'z'.toUInt8 then (c - 'a'.toUInt8).toNat + 16
  else 256

/-- The variables of `strtol` that change while it reads digits: the number is
kept negated, `ptr` is an offset from `nptr`, and `errno` is `none` as long as
it is left alone. -/
structure Scan where
  res : ℤ
  errno : Option Errno
  ptr : ℕ
deriving DecidableEq

def Scan.next (base d : ℤ) (s : Scan) : Scan :=
  if s.res < LONG_MIN.tdiv base then ⟨LONG_MIN, some .ERANGE, s.ptr + 1⟩
  else if s.res * base < LONG_MIN + d then ⟨LONG_MIN, some .ERANGE, s.ptr + 1⟩
  else ⟨s.res * base - d, s.errno, s.ptr + 1⟩

/-- `while((d = digit(*ptr)) < base)`, on the bytes from `ptr` on. -/
def scanDigits (base : ℤ) : List UInt8 → Scan → Scan
  | [], s => s
  | c :: cs, s => if (digit c : ℤ) < base then scanDigits base cs (s.next base (digit c)) else s

/-- `while(*p != '\0' && isspace(*p)) ++p;` -/
def skipSpace : List UInt8 → ℕ → ℕ
  | [], p => p
  | c :: cs, p => if c ≠ 0 ∧ isspace c then skipSpace cs (p + 1) else p

/-- The offset behind the signs, and `sign`. -/
def parseSign (s : List UInt8) (p : ℕ) : ℕ × ℤ :=
  let p := if byte s p = '+'.toUInt8 then p + 1 else p
  if byte s p = '-'.toUInt8 then (p + 1, -1) else (p, 1)

/-- The detection of the base, with `ptr` at `nptr` before it. -/
def detectBase (s : List UInt8) (p : ℕ) (base : ℤ) : ℤ × ℕ :=
  let hex := byte s p = '0'.toUInt8 ∧ byte s (p + 1) = 'x'.toUInt8 ∧ digit (byte s (p + 2)) < 16
  let (base, ptr) := if (base = 0 ∨ base = 16) ∧ hex then (16, p + 2) else (base, 0)
  let (base, ptr) := if base = 0 ∧ byte s p = '0'.toUInt8 then (8, p + 1) else (base, ptr)
  (if base = 0 then 10 else base, ptr)

/-- `switch(base)`, which never meets its `case 0`. -/
def skipPrefix (s : List UInt8) (p : ℕ) (base : ℤ) (ptr : ℕ) : ℕ :=
  if base = 16 then
    if byte s p = '0'.toUInt8 then
      if (byte s (p + 1) = 'x'.toUInt8 ∨ byte s (p + 1) = 'X'.toUInt8) ∧ digit (byte s (p + 2)) < 16
      then p + 2
      else p
    else if digit (byte s p) ≤ 16 then p
    else ptr
  else if (digit (byte s p) : ℤ) < base then p
  else ptr

/-- What `strtol` returns and leaves in `*endptr` and `errno`. -/
structure Parsed where
  value : ℤ
  endptr : ℕ
  errno : Option Errno
deriving DecidableEq

/-- The label `out`. -/
def out (sign : ℤ) (s : Scan) : Parsed :=
  let errno := if s.ptr = 0 then some .EINVAL else s.errno
  if sign = 1 then
    if s.res = LONG_MIN then ⟨LONG_MAX, s.ptr, some .ERANGE⟩
    else ⟨-s.res, s.ptr, errno⟩
  else ⟨s.res, s.ptr, errno⟩

/-- `strtol`; the string is given by its bytes, `none` stands for `NULL`. -/
def strtol (nptr : Option (List UInt8)) (base : ℤ) : Parsed :=
  match nptr with
  | none => out 1 ⟨0, some .EINVAL, 0⟩
  | some s =>
    if base = 1 ∨ base < 0 ∨ 36 < base then out 1 ⟨0, some .EINVAL, 0⟩
    else
      let p := skipSpace s 0
      if byte s p = 0 then out 1 ⟨0, none, 0⟩
      else
        let (p, sign) := parseSign s p
        if byte s p = 0 then out sign ⟨0, none, 0⟩
        else
          let (base, ptr) := detectBase s p base
          let ptr := skipPrefix s p base ptr
          out sign (scanDigits base (s.drop ptr) ⟨0, none, ptr⟩)

end OcamlRpi.Stdlib

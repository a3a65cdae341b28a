import OcamlRpi.Printf.Number

namespace OcamlRpi.Printf

open Function List

/-- An argument, as `va_arg` finds it: a word, a double word, or a pointer to a
string, given by the bytes before a NUL. -/
inductive Arg where
  | int (v : BitVec 32)
  | long (v : BitVec 64)
  | str (s : List UInt8)
deriving DecidableEq

def isdigit (c : UInt8) : Bool := c - '0'.toUInt8 < 10

/-- The byte at the offset `i` from the start of the format. The list goes on
with the memory behind the NUL. -/
def byte (fmt : List UInt8) (i : ℕ) : UInt8 := fmt.getD i 0

theorem byte_drop (fmt : List UInt8) (j i : ℕ) : byte (fmt.drop j) i = byte fmt (j + i) := by
  simp [byte]

/-- `atoi`, on the bytes from the offset `i` on. -/
def atoi : List UInt8 → ℤ → ℕ → ℤ × ℕ
  | [], n, i => (n, i)
  | c :: cs, n, i => if isdigit c then atoi cs (int (n * 10 + (c - '0'.toUInt8).toNat)) (i + 1) else (n, i)

/-- The label `repeat`. -/
def parseFlags : List UInt8 → Flags → ℕ → Flags × ℕ
  | [], flags, i => (flags, i)
  | c :: cs, flags, i =>
    match Char.ofUInt8 c with
    | '+' => parseFlags cs { flags with plus := true } (i + 1)
    | '-' => parseFlags cs { flags with left := true } (i + 1)
    | '#' => parseFlags cs { flags with alternate := true } (i + 1)
    | ' ' => parseFlags cs { flags with space := true } (i + 1)
    | '0' => parseFlags cs { flags with zeropad := true } (i + 1)
    | _ => (flags, i)

/-- `va_arg(args, int)`, or 0 where it is negative. -/
def vaStar : List Arg → Option (ℤ × List Arg)
  | .int v :: args => some (if v.toInt < 0 then 0 else v.toInt, args)
  | _ => none

def parseWidth (fmt : List UInt8) (i : ℕ) (args : List Arg) : Option (ℤ × ℕ × List Arg) :=
  if byte fmt i = '*'.toUInt8 then (vaStar args).map fun (width, args) ↦ (width, i + 1, args)
  else if isdigit (byte fmt i) then
    let (width, i) := atoi (fmt.drop i) 0 i
    some (width, i, args)
  else some (0, i, args)

def parsePrecision (fmt : List UInt8) (i : ℕ) (args : List Arg) : Option (ℤ × ℕ × List Arg) :=
  if byte fmt i = '.'.toUInt8 then
    if byte fmt (i + 1) = '*'.toUInt8 then
      (vaStar args).map fun (precision, args) ↦ (precision, i + 2, args)
    else
      let (precision, i) := atoi (fmt.drop (i + 1)) 0 (i + 1)
      some (precision, i, args)
  else some (-1, i, args)

def parseLength (fmt : List UInt8) (i : ℕ) : ℕ × ℕ :=
  match Char.ofUInt8 (byte fmt i) with
  | 'h' => if byte fmt (i + 1) = 'h'.toUInt8 then (1, i + 2) else (2, i + 1)
  | 'l' => if byte fmt (i + 1) = 'l'.toUInt8 then (8, i + 2) else (4, i + 1)
  | 'z' => (4, i + 1)
  | 't' => (4, i + 1)
  | _ => (4, i)

/-- The value of an argument of `bits` bits, cast to `uint64_t`. -/
def cast (signed : Bool) (bits : ℕ) (v : BitVec 32) : ℕ :=
  if signed then ((v.setWidth bits).signExtend 64).toNat else (v.setWidth bits).toNat

/-- `switch(length)` of the integer conversions. -/
def vaNum (signed : Bool) : ℕ → List Arg → Option (ℕ × List Arg)
  | 1, .int v :: args => some (cast signed 8 v, args)
  | 2, .int v :: args => some (cast signed 16 v, args)
  | 4, .int v :: args => some (cast signed 32 v, args)
  | 8, .long v :: args => some (v.toNat, args)
  | _, _ => none

/-- What a placeholder asks for. -/
inductive Action where
  | number (num : ℕ) (hex : Bool) (width precision : ℤ) (flags : Flags)
  | char
  | string (s : List UInt8) (precision : ℤ)
  | percent
  | unknown

section Types

variable (flags : Flags) (width precision : ℤ) (length : ℕ) (args : List Arg)

def caseD : Option (Action × List Arg) :=
  (vaNum true length args).map fun (num, args) ↦
    (.number num false width (if precision = -1 then 0 else precision) { flags with sign := true }, args)

def caseU (hex : Bool) : Option (Action × List Arg) :=
  (vaNum false length args).map fun (num, args) ↦
    (.number num hex width (if precision = -1 then 0 else precision) flags, args)

def caseX : Option (Action × List Arg) :=
  caseU { flags with space := false, zeropad := true } width precision length args true

def caseUpperX : Option (Action × List Arg) :=
  caseX { flags with upper := true } width precision length args

def caseP : Option (Action × List Arg) :=
  caseUpperX { flags with alternate := true } width (if precision = -1 then 8 else precision) length args

/-- The `switch` on the type `c` of a placeholder. -/
def convert (c : UInt8) : Option (Action × List Arg) :=
  match Char.ofUInt8 c with
  | 'd' => caseD flags width precision length args
  | 'i' => caseD flags width precision length args
  | 'p' => caseP flags width precision length args
  | 'X' => caseUpperX flags width precision length args
  | 'x' => caseX flags width precision length args
  | 'u' => caseU flags width precision length args false
  | 'c' => some (.char, args)
  | 's' =>
    match args with
    | .str s :: args => some (.string s precision, args)
    | _ => none
  | '%' => some (.percent, args)
  | _ => some (.unknown, args)

end Types

/-- The placeholder whose `%` is right before the offset `i`. -/
def placeholder (fmt : List UInt8) (i : ℕ) (args : List Arg) : Option (Action × ℕ × List Arg) := do
  let (flags, i) := parseFlags (fmt.drop i) .empty i
  let (width, i, args) ← parseWidth fmt i args
  let (precision, i, args) ← parsePrecision fmt i args
  let (length, i) := parseLength fmt i
  let (action, args) ← convert flags width precision length args (byte fmt i)
  some (action, i + 1, args)

/-- `while(*s != 0) buf_add(*s++);` -/
def putString : ℕ → Out → List UInt8 → Option Out
  | 0, _, _ => none
  | n + 1, o, s =>
    if s.headD 0 = 0 then some o
    else putString n (o.bufAdd (s.headD 0)) (if o.buf < o.stop then s.tail else s)

/-- `while(precision > 0 && *s != 0) { --precision; buf_add(*s++); }` -/
def putPrefix : ℕ → Out → List UInt8 → Out
  | 0, o, _ => o
  | precision + 1, o, s =>
    if s.headD 0 = 0 then o
    else putPrefix precision (o.bufAdd (s.headD 0)) (if o.buf < o.stop then s.tail else s)

/-- `while(*format != '%') --format;` -/
def rewind (fmt : List UInt8) : ℕ → ℕ
  | 0 => 0
  | i + 1 => if byte fmt (i + 1) = '%'.toUInt8 then i + 1 else rewind fmt i

/-- Print what a placeholder asks for; `i` is the offset behind it. -/
def perform (fuel : ℕ) (fmt : List UInt8) (i : ℕ) (args : List Arg) (o : Out) :
    Action → Option (ℕ × List Arg × Out)
  | .number num hex width precision flags =>
    (sprintInt fuel o num (if hex then 16 else 10) width precision flags).map fun o ↦ (i, args, o)
  | .char =>
    if o.buf < o.stop then
      match args with
      | .int v :: args => some (i, args, o.bufAdd (UInt8.ofNat v.toNat))
      | _ => none
    else some (i, args, o.bufAdd 0)
  | .string s precision =>
    if precision = -1 then (putString fuel o s).map fun o ↦ (i, args, o)
    else some (i, args, putPrefix precision.toNat o s)
  | .percent => some (i, args, o.bufAdd '%'.toUInt8)
  | .unknown =>
    let i := rewind fmt i
    some (if o.buf < o.stop then i + 1 else i, args, o.bufAdd (byte fmt i))

/-- The loop `while(*format != 0)` of `vsnprintf`. -/
def format : ℕ → List UInt8 → ℕ → List Arg → Out → Option (List Arg × Out)
  | 0, _, _, _, _ => none
  | fuel + 1, fmt, i, args, o =>
    if byte fmt i = 0 then some (args, o)
    else if byte fmt i ≠ '%'.toUInt8 then format fuel fmt (i + 1) args (o.bufAdd (byte fmt i))
    else do
      let (action, i, args) ← placeholder fmt (i + 1) args
      let (i, args, o) ← perform fuel fmt i args o action
      format fuel fmt i args o

/-- The value that `vsnprintf` returns, the arguments that it leaves, and what
it wrote. -/
structure Result where
  ret : ℤ
  args : List Arg
  written : ℕ → Option UInt8

/-- `vsnprintf` after its loop. -/
def finish (buf size : ℕ) (args : List Arg) (o : Out) : Result where
  ret := int (((o.bufAdd 0).buf : ℤ) - buf - 1)
  args := args
  written :=
    if 0 < size then update (o.bufAdd 0).written ((o.stop + 2 ^ 32 - 1) % 2 ^ 32) (some 0)
    else (o.bufAdd 0).written

def vsnprintf (fuel buf size : ℕ) (fmt : List UInt8) (args : List Arg) : Option Result :=
  (format fuel fmt 0 args (.start buf size)).map fun p ↦ finish buf size p.1 p.2

end OcamlRpi.Printf

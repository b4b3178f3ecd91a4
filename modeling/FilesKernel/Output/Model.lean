import FilesKernel.Stdlib.NumberText
import FilesKernel.Stdlib.Strtoul

/-! Formatted output (`print.c`, and the listing of `file_system.c`).

    The type of a directive is an `int` with the conversion in the low byte and the modifiers as bits
    above, as in the source. What `out` gets is the list of the bytes from `buf` on that belong to
    the piece, and the size as an `int`. A sum that does not fit into an `int` is a fault. -/

namespace FilesKernel.Output
open CExec CWord FileSystem Stdlib

/-- An argument: a number in the eight bytes of its slot, or a pointer to a string. -/
inductive Arg where
  | word (w : ℕ)
  | str (s : CString)
  deriving DecidableEq, Repr

/-- A sink: the function `out` gets `written`, the state of the sink, the bytes and the size. -/
abbrev Sink (σ : Type) := ℤ → σ → CString → ℤ → Exec (ℤ × σ)

/-- `struct print_ctx`, with the state of its sink -/
structure PrintCtx (σ : Type) where
  written : ℤ
  sink : σ
  deriving DecidableEq, Repr

variable {σ : Type}

/-- `print` -/
def print (out : Sink σ) (ctx : PrintCtx σ) (buf : CString) (size : ℤ) :
    Exec (ℤ × PrintCtx σ) := do
  let (rc, sink) ← out ctx.written ctx.sink buf size
  if rc < 0 then .ok (rc, { ctx with sink := sink })
  else if 2 ^ 31 ≤ ctx.written + size then .error .fault
  else .ok (0, ⟨ctx.written + size, sink⟩)

/-! ### Reading the format -/

/-- `enum format_type` -/
def FMT_INVALID : ℕ := 0
def FMT_NONE : ℕ := 1
def FMT_STR : ℕ := 2
def FMT_CHAR : ℕ := 3
def FMT_INT : ℕ := 4
def FMT_PERCENT : ℕ := 5

/-- `enum fromat_spec` -/
def FMT_SSHORT : ℕ := 2 ^ 8
def FMT_SHORT : ℕ := 2 ^ 9
def FMT_LONG : ℕ := 2 ^ 10
def FMT_LLONG : ℕ := 2 ^ 11
def FMT_UNSIGNED : ℕ := 2 ^ 12
def FMT_HEX : ℕ := 2 ^ 13
def FMT_OCT : ℕ := 2 ^ 14

/-- `-`, `+`, space, `#` or `0`, if there is one -/
def skipFlag : CString → CString
  | [] => []
  | c :: fmt => if c ∈ [45, 43, 32, 35, 48] then fmt else c :: fmt

/-- `while (*fmt && isdigit(*fmt)) ++fmt;` -/
def skipDigits (fmt : CString) : CString := fmt.dropWhile isDigit

/-- `.` and digits, if there are some -/
def skipPrecision : CString → CString
  | [] => []
  | c :: fmt => if c = 46 then skipDigits fmt else c :: fmt

/-- The format behind its next byte, if that is `c`. -/
def eat (c : UInt8) : CString → Option CString
  | [] => none
  | d :: fmt => if d = c then some fmt else none

/-- `l`, `ll`, `h` or `hh` -/
def lengthSpec (fmt : CString) : ℕ × CString :=
  match eat 108 fmt with
  | some fmt =>
    match eat 108 fmt with
    | some fmt => (FMT_LLONG, fmt)
    | none => (FMT_LONG, fmt)
  | none =>
    match eat 104 fmt with
    | some fmt =>
      match eat 104 fmt with
      | some fmt => (FMT_SSHORT, fmt)
      | none => (FMT_SHORT, fmt)
    | none => (0, fmt)

/-- The bits that the `switch` over the letter of a directive adds; `p` falls through to `x`, this to
    `u`, and this to `d`. -/
def letterSpec (c : UInt8) (spec : ℕ) : ℕ :=
  let spec := if c = 112 then spec ||| FMT_LONG else spec
  let spec :=
    if c ∈ [112, 120, 88, 111] then spec ||| (if c = 111 then FMT_OCT else FMT_HEX) else spec
  if c ∈ [112, 120, 88, 111, 117] then spec ||| FMT_UNSIGNED else spec

/-- The type in the same `switch`. -/
def letterType (c : UInt8) : ℕ :=
  if c ∈ [112, 120, 88, 111, 117, 100, 105] then FMT_INT
  else if c = 115 then FMT_STR
  else if c = 99 then FMT_CHAR
  else if c = 37 then FMT_PERCENT
  else FMT_INVALID

/-- `decode_format` behind a `%`; a NUL in place of the letter makes it invalid. -/
def decodeDirective (fmt : CString) : ℕ × CString :=
  match lengthSpec (skipPrecision (skipDigits (skipFlag fmt))) with
  | (spec, []) => (FMT_INVALID ||| spec, [])
  | (spec, c :: fmt) => (letterType c ||| letterSpec c spec, fmt)

/-- The loop of `decode_format`. -/
def decodeFormat (type : ℕ) : CString → ℕ × CString
  | [] => (type, [])
  | c :: fmt =>
    if c = 37 ∧ type ≠ FMT_INVALID then (type, c :: fmt)
    else if c ≠ 37 then decodeFormat FMT_NONE fmt
    else decodeDirective fmt

/-! ### Printing -/

/-- `va_arg` of a number; there is no argument of another type to be read in its place. -/
def vaWord : List Arg → Exec (ℕ × List Arg)
  | .word w :: args => .ok (w, args)
  | _ => .error .fault

def vaStr : List Arg → Exec (CString × List Arg)
  | .str s :: args => .ok (s, args)
  | _ => .error .fault

/-- The value of a slot as an `int` or `long`. -/
def asInt (w : ℕ) : ℤ := Int.bmod w (2 ^ 32)
def asLong (w : ℕ) : ℤ := Int.bmod w (2 ^ 64)

/-- The text in `buf` of `print_number`, which has room for the longest. -/
def numberText (type w : ℕ) : Exec CString :=
  let base := if type &&& FMT_HEX ≠ 0 then 16 else if type &&& FMT_OCT ≠ 0 then 8 else 10
  if type &&& FMT_UNSIGNED ≠ 0 then
    let value :=
      if type &&& FMT_LONG ≠ 0 then w % 2 ^ 64
      else if type &&& FMT_LLONG ≠ 0 then w % 2 ^ 64
      else w % 2 ^ 32
    ulltoa value base
  else
    let value :=
      if type &&& FMT_LONG ≠ 0 then asLong w
      else if type &&& FMT_LLONG ≠ 0 then asLong w
      else asInt w
    lltoa value base

def printNumber (out : Sink σ) (ctx : PrintCtx σ) (args : List Arg) (type : ℕ) :
    Exec (ℤ × PrintCtx σ × List Arg) := do
  let (w, args) ← vaWord args
  let text ← numberText type w
  let (rc, ctx) ← print out ctx text (toInt text.length)
  .ok (rc, ctx, args)

/-- The `switch` of `__vprintf`, where `start` is the piece that was just read. -/
def vprintfPiece (out : Sink σ) (ctx : PrintCtx σ) (args : List Arg) (type : ℕ) (start : CString) :
    Exec (ℤ × PrintCtx σ × List Arg) :=
  if type &&& 0xff = FMT_STR then do
    let (s, args) ← vaStr args
    let (rc, ctx) ← print out ctx s (toInt s.length)
    .ok (rc, ctx, args)
  else if type &&& 0xff = FMT_CHAR then do
    let (w, args) ← vaWord args
    let (rc, ctx) ← print out ctx [UInt8.ofNat w] 1
    .ok (rc, ctx, args)
  else if type &&& 0xff = FMT_INT then printNumber out ctx args type
  else if type &&& 0xff = FMT_NONE then do
    let (rc, ctx) ← print out ctx start (toInt start.length)
    .ok (rc, ctx, args)
  else if type &&& 0xff = FMT_PERCENT then do
    let (rc, ctx) ← print out ctx [37] 1
    .ok (rc, ctx, args)
  else .ok (-1, ctx, args)

/-- The loop of `__vprintf`, with at most `n` iterations; `rc` is the one of the last piece. -/
def vprintfLoop (out : Sink σ) : ℕ → ℤ → PrintCtx σ → CString → List Arg →
    Exec (ℤ × PrintCtx σ × List Arg)
  | 0, _, _, _, _ => .error .fuel
  | n + 1, rc, ctx, fmt, args =>
    if 0 ≤ rc ∧ fmt ≠ [] then do
      let (type, rest) := decodeFormat FMT_INVALID fmt
      let (rc, ctx, args) ← vprintfPiece out ctx args type (fmt.take (fmt.length - rest.length))
      vprintfLoop out n rc ctx rest args
    else .ok (rc, ctx, args)

/-- `__vprintf`: the result, the state of the sink and the arguments that are left -/
def vprintfTo (out : Sink σ) (sink : σ) (fmt : CString) (args : List Arg) :
    Exec (ℤ × σ × List Arg) := do
  let (rc, ctx, args) ← vprintfLoop out (fmt.length + 1) 0 ⟨0, sink⟩ fmt args
  .ok (if rc < 0 then rc else ctx.written, ctx.sink, args)

/-! ### The console -/

/-- The first `size` of the bytes; a negative size is a huge one as a `size_t`. -/
def readBytes (buf : CString) (size : ℤ) : Exec CString :=
  if 0 ≤ size ∧ size ≤ buf.length then .ok (buf.take size.toNat) else .error .fault

/-- `serial_out`; the state is what was written to the serial port so far. -/
def serialOut : Sink CString := fun _ console buf size => do
  let bytes ← readBytes buf size
  .ok (0, console ++ bytes)

def vprintf (console fmt : CString) (args : List Arg) : Exec (ℤ × CString × List Arg) :=
  vprintfTo serialOut console fmt args

def printf (console fmt : CString) (args : List Arg) : Exec (ℤ × CString) := do
  let (rc, console, _) ← vprintf console fmt args
  .ok (rc, console)

/-- The loop of `print_dir_names_list` over the list of names. -/
def printNames (console : CString) : List CString → Exec CString
  | [] => .ok console
  | name :: names => do
    let (_, console) ← printf console name []
    let (_, console) ← printf console [44, 32] []
    printNames console names

/-- `print_dir_names_list` -/
def printDirNamesList (console : CString) (names : List CString) : Exec CString := do
  let console ← printNames console names
  let (_, console) ← printf console [10] []
  .ok console

/-! ### Strings -/

/-- A store to `buf[i]`, with `i` an `int`; the buffer ends with its last byte. -/
def storeByte (buf : CString) (i : ℤ) (c : UInt8) : Exec CString :=
  if 0 ≤ i ∧ i < buf.length then .ok (buf.set i.toNat c) else .error .fault

/-- `memcpy`, byte after byte -/
def storeBytes : CString → ℤ → CString → Exec CString
  | buf, _, [] => .ok buf
  | buf, i, c :: bytes => do
    let buf ← storeByte buf i c
    storeBytes buf (i + 1) bytes

/-- `str_out` for a buffer of `size` bytes -/
def strOut (size : ℤ) : Sink CString := fun written buf bytes n =>
  if written > size then .ok (0, buf)
  else do
    let remain := if n < size - written then n else size - written
    let bytes ← readBytes bytes remain
    let buf ← storeBytes buf written bytes
    .ok (0, buf)

def vsnprintf (buf : CString) (size : ℕ) (fmt : CString) (args : List Arg) :
    Exec (ℤ × CString × List Arg) := do
  let (rc, buf, args) ← vprintfTo (strOut (toInt size)) buf fmt args
  if 0 ≤ rc then do
    let buf ← storeByte buf (if rc < toInt size then rc - 1 else toInt size - 1) 0
    .ok (rc, buf, args)
  else .ok (rc, buf, args)

end FilesKernel.Output

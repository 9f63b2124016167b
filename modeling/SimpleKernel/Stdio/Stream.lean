import SimpleKernel.Lib.Cursor
import SimpleKernel.Lib.Int32

/-! Buffered streams (`stdio.c`), as `fopen` makes them: with a buffer of their own, which the first operation that
needs one allocates. -/
namespace SimpleKernel.Stdio

abbrev Byte := UInt8

/-- `BUFSIZ`, the size of the buffers that `getbuf` allocates. -/
def bufsiz : ℕ := 512

/-- A `FILE` with the file behind it. `ptr` counts from the base of the buffer. -/
structure Iobuf where
  file : Cursor Byte
  /-- The reads of the file so far. -/
  reads : ℕ
  ptr : ℕ
  cnt : ℤ
  buf : ℕ → Byte
  /-- `_IOOWNBUF`: the stream has a buffer. -/
  ownbuf : Bool
  rd : Bool
  wr : Bool
  rw : Bool
  eof : Bool
  err : Bool

namespace Iobuf

/- How many bytes after the first each read of the file returns at most. -/
variable (serve : ℕ → ℕ)

/-- `read`: at least one byte until end of file, but perhaps fewer than asked for. -/
def read (s : Iobuf) (n : ℕ) : List Byte × Iobuf :=
  let data := (s.file.ahead n).take (serve s.reads + 1)
  (data, { s with file := s.file.goto (s.file.pos + data.length), reads := s.reads + 1 })

/-- `write`, which transfers everything. -/
def write (s : Iobuf) (data : List Byte) : Iobuf := { s with file := s.file.puts 0 data }

/-- `n` bytes of the buffer. -/
def bytes (s : Iobuf) (p n : ℕ) : List Byte := (List.range n).map fun i => s.buf (p + i)

/-- `memcpy` into the buffer. -/
def fill (s : Iobuf) (p : ℕ) (data : List Byte) : Iobuf :=
  { s with buf := fun i => if h : p ≤ i ∧ i < p + data.length then data[i - p] else s.buf i }

def getbuf (s : Iobuf) : Iobuf := { s with ownbuf := true, ptr := 0, cnt := 0 }

/-- The number of bytes that `cnt`, as an unsigned number, admits. -/
def room (s : Iobuf) (n : ℕ) : ℕ := min n (s.cnt % 2 ^ 32).toNat

/-- `none` is `EOF`. -/
def filbuf (s : Iobuf) : Option Byte × Iobuf :=
  if s.wr then (none, { s with err := true })
  else
    let s := { s with rd := true }
    let s := if s.ownbuf then { s with ptr := 0 } else s.getbuf
    let r := s.read serve bufsiz
    if r.1.length = 0 then (none, { r.2 with eof := true, cnt := 0 })
    else
      let s := { r.2.fill 0 r.1 with cnt := r.1.length - 1, ptr := 1 }
      (some (s.buf 0), s)

def getc (s : Iobuf) : Option Byte × Iobuf :=
  let s := { s with cnt := s.cnt - 1 }
  if 0 ≤ s.cnt then (some (s.buf s.ptr), { s with ptr := s.ptr + 1 }) else s.filbuf serve

/-- The loop of `fgets` with room for `n` characters. -/
def fgetsLoop (s : Iobuf) : ℕ → List Byte × Iobuf
  | 0 => ([], s)
  | n + 1 =>
    match s.getc serve with
    | (none, s') => ([], s')
    | (some c, s') =>
      if c = 10 then ([c], s') else (c :: (s'.fgetsLoop n).1, (s'.fgetsLoop n).2)

/-- `none` is `NULL`. -/
def fgets (s : Iobuf) (n : ℤ) : Option (List Byte) × Iobuf :=
  if n ≤ 0 then (none, s)
  else
    let r := s.fgetsLoop serve (n - 1).toNat
    (if r.1 = [] ∧ n ≠ 1 then none else some r.1, r.2)

/-- One turn of the loop of `fread` with `count` bytes to go; without any bytes it is the last one. -/
def freadTurn (s : Iobuf) (count : ℕ) : List Byte × Iobuf :=
  if s.ownbuf ∧ s.cnt ≠ 0 then
    let nbytes := s.room count
    (s.bytes s.ptr nbytes, { s with cnt := s.cnt - nbytes, ptr := s.ptr + nbytes })
  else if bufsiz ≤ count then
    let r := s.read serve (count - count % bufsiz)
    (r.1, if r.1.length = 0 then { r.2 with eof := true } else r.2)
  else
    let r := s.filbuf serve
    (r.1.toList, r.2)

/-- The loop of `fread`, with a bound on its turns. -/
def freadLoop : ℕ → Iobuf → ℕ → List Byte × Iobuf
  | 0, s, _ => ([], s)
  | turns + 1, s, count =>
    if count = 0 then ([], s)
    else
      let r := s.freadTurn serve count
      if r.1 = [] then r
      else
        let t := freadLoop turns r.2 (count - r.1.length)
        (r.1 ++ t.1, t.2)

/-- The bytes that were read and the number of items. -/
def fread (s : Iobuf) (size num : ℕ) : (List Byte × ℕ) × Iobuf :=
  let total := size * num % 2 ^ 32
  if total = 0 then (([], 0), s)
  else
    let r := freadLoop serve total s total
    ((r.1, if r.1.length = total then num else r.1.length / size), r.2)

/-- With an own buffer: what has been written to the buffer goes to the file, and the buffer is empty. -/
def fflush (s : Iobuf) : Iobuf :=
  let s := if !s.rd && s.wr && s.ownbuf && decide (0 < s.ptr) then
      let s := s.write (s.bytes 0 s.ptr)
      if s.rw then { s with wr := false } else s
    else s
  { s with ptr := 0, cnt := 0 }

def flsbuf (s : Iobuf) (ch : Byte) : Option Byte × Iobuf :=
  if !s.wr && !s.rw then (none, { s with err := true })
  else if s.rd && !s.eof then (none, { s with cnt := 0, err := true })
  else
    let s := if s.rd then { s with ptr := 0, rd := false } else s
    let s := { s with wr := true, eof := false, cnt := 0 }
    let s := if s.ownbuf then s else s.getbuf
    let s := if 0 < s.ptr then s.write (s.bytes 0 s.ptr) else s
    (some ch, { s.fill 0 [ch] with ptr := 1, cnt := bufsiz - 1 })

def putc (s : Iobuf) (ch : Byte) : Option Byte × Iobuf :=
  let s := { s with cnt := s.cnt - 1 }
  if 0 ≤ s.cnt then (some ch, { s.fill s.ptr [ch] with ptr := s.ptr + 1 }) else s.flsbuf ch

/-- One turn of the loop of `fwrite`: the number of bytes that it takes of `data`, 0 on failure. -/
def fwriteTurn (s : Iobuf) (data : List Byte) : ℕ × Iobuf :=
  if s.ownbuf ∧ s.cnt ≠ 0 then
    let nbytes := s.room data.length
    (nbytes, { s.fill s.ptr (data.take nbytes) with cnt := s.cnt - nbytes, ptr := s.ptr + nbytes })
  else if bufsiz ≤ data.length then
    let s := if s.ownbuf then s.fflush else s
    let nbytes := data.length - data.length % bufsiz
    (nbytes, s.write (data.take nbytes))
  else
    match data with
    | [] => (0, s)
    | c :: _ =>
      let r := s.flsbuf c
      (if r.1 = none then 0 else 1, r.2)

/-- The loop of `fwrite`, with a bound on its turns: the number of bytes that were written. -/
def fwriteLoop : ℕ → Iobuf → List Byte → ℕ × Iobuf
  | 0, s, _ => (0, s)
  | turns + 1, s, data =>
    if data = [] then (0, s)
    else
      let r := s.fwriteTurn data
      if r.1 = 0 then r
      else
        let t := fwriteLoop turns r.2 (data.drop r.1)
        (r.1 + t.1, t.2)

/-- The number of items that were written, from a buffer with the bytes `data`. -/
def fwrite (s : Iobuf) (data : List Byte) (size num : ℕ) : ℕ × Iobuf :=
  let total := size * num % 2 ^ 32
  if total = 0 then (0, s)
  else
    let r := fwriteLoop total s (data.take total)
    (if r.1 = total then num else r.1 / size, r.2)

/-- 0, or -1 for `EOF`. -/
def fputs (s : Iobuf) (string : List Byte) : ℤ × Iobuf :=
  let r := s.fwrite string 1 string.length
  (if r.1 = string.length then 0 else -1, r.2)

/-- `lseek`: the new position, negative on failure. -/
def lseek (s : Iobuf) (offset whence : ℤ) : ℤ × Iobuf :=
  let target := offset + if whence = 1 then (s.file.pos : ℤ) else if whence = 2 then s.file.items.length else 0
  if target < 0 then (-22, s) else (target, { s with file := s.file.goto target.toNat })

def fseek (s : Iobuf) (offset whence : ℤ) : ℤ × Iobuf :=
  if whence ≠ 0 ∧ whence ≠ 1 ∧ whence ≠ 2 then (-1, s)
  else
    let offset := if whence = 1 ∧ s.rd = true then int32 (offset - s.cnt) else offset
    let s := { s with eof := false }.fflush
    let s := if s.rw then { s with rd := false, wr := false } else s
    let r := s.lseek offset whence
    (if r.1 < 0 then -1 else 0, r.2)

def ftell (s : Iobuf) : ℤ × Iobuf :=
  let s := if s.cnt < 0 then { s with cnt := 0 } else s
  (if !s.ownbuf then s.file.pos - s.cnt
    else if s.rd then s.file.pos - s.cnt
    else if s.wr then s.file.pos + s.ptr
    else s.file.pos, s)

def rewind (s : Iobuf) : Iobuf := { (s.fseek 0 0).2 with eof := false, err := false }

/-- `none` is `EOF`. -/
def ungetc (s : Iobuf) (c : Byte) : Option Byte × Iobuf :=
  if !(s.rd || s.rw && !s.wr) then (none, s)
  else
    let s := if s.ownbuf then s else s.getbuf
    if s.ptr = 0 ∧ s.cnt ≠ 0 then (none, s)
    else
      let s := if s.ptr = 0 then { s with ptr := s.ptr + 1 } else s
      (some c, { s.fill (s.ptr - 1) [c] with
        ptr := s.ptr - 1
        cnt := s.cnt + 1
        eof := false
        rd := true })

end Iobuf

/-- The mode `r` or `w` of `fopen`, with or without `+`. -/
structure Mode where
  write : Bool
  plus : Bool

/-- The stream of `fopen` on a file with the given bytes. -/
def fopen (mode : Mode) (items : List Byte) : Iobuf where
  file := ⟨if mode.write then [] else items, 0⟩
  reads := 0
  ptr := 0
  cnt := 0
  buf := fun _ => 0
  ownbuf := false
  rd := !mode.write && !mode.plus
  wr := mode.write && !mode.plus
  rw := mode.plus
  eof := false
  err := false

/-- The file after `fclose`. -/
def fclose (s : Iobuf) : Cursor Byte := s.fflush.file

end SimpleKernel.Stdio

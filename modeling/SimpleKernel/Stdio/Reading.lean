import SimpleKernel.Stdio.Stream

/-! The operations byte by byte without a buffer, what a program may do with a stream, and reading: the rest of the
buffer is the next bytes of the file. -/
namespace SimpleKernel.Stdio

/-- An operation on a stream. -/
inductive Op
  | fread (size num : ℕ)
  | fgets (n : ℤ)
  | getc
  | ungetc (c : Byte)
  | fwrite (data : List Byte) (size num : ℕ)
  | fputs (string : List Byte)
  | putc (c : Byte)
  | fflush
  | fseek (offset whence : ℤ)
  | ftell
  | rewind
deriving DecidableEq

/-- What an operation delivers and returns. -/
inductive Out
  | items (bytes : List Byte) (num : ℕ)
  | line (bytes : Option (List Byte))
  | char (c : Option Byte)
  | num (n : ℕ)
  | code (rc : ℤ)
  | none
deriving DecidableEq

/-- The operation on the stream. -/
def Op.exec (serve : ℕ → ℕ) (s : Iobuf) : Op → Out × Iobuf
  | .fread size num => let r := s.fread serve size num; (.items r.1.1 r.1.2, r.2)
  | .fgets n => let r := s.fgets serve n; (.line r.1, r.2)
  | .getc => let r := s.getc serve; (.char r.1, r.2)
  | .ungetc c => let r := s.ungetc c; (.char r.1, r.2)
  | .fwrite data size num => let r := s.fwrite data size num; (.num r.1, r.2)
  | .fputs string => let r := s.fputs string; (.code r.1, r.2)
  | .putc c => let r := s.putc c; (.char r.1, r.2)
  | .fflush => (.none, s.fflush)
  | .fseek offset whence => let r := s.fseek offset whence; (.code r.1, r.2)
  | .ftell => let r := s.ftell; (.code r.1, r.2)
  | .rewind => (.none, s.rewind)

namespace Direct

/-- Characters are read up to the end of the line. -/
def line (d : Cursor Byte) : ℕ → List Byte × Cursor Byte
  | 0 => ([], d)
  | n + 1 =>
    match d.items[d.pos]? with
    | none => ([], d)
    | some c =>
      if c = 10 then ([c], d.goto (d.pos + 1))
      else (c :: (line (d.goto (d.pos + 1)) n).1, (line (d.goto (d.pos + 1)) n).2)

/-- Where a seek goes. -/
def target (d : Cursor Byte) (offset whence : ℤ) : ℤ :=
  offset + if whence = 1 then (d.pos : ℤ) else if whence = 2 then d.items.length else 0

def seek (d : Cursor Byte) (offset whence : ℤ) : ℤ × Cursor Byte :=
  if whence ≠ 0 ∧ whence ≠ 1 ∧ whence ≠ 2 ∨ target d offset whence < 0 then (-1, d)
  else (0, d.goto (target d offset whence).toNat)

end Direct

open Direct in
/-- The operation on the file. -/
def Op.direct (d : Cursor Byte) : Op → Out × Cursor Byte
  | .fread size num => let r := d.takes (size * num); (.items r.1 (r.1.length / size), r.2)
  | .fgets n =>
    let r := line d (n - 1).toNat
    (.line (if n ≤ 0 ∨ r.1 = [] ∧ n ≠ 1 then none else some r.1), r.2)
  | .getc => let r := d.takes 1; (.char r.1.head?, r.2)
  | .ungetc c => (.char (some c), d.goto (d.pos - 1))
  | .fwrite data size _ => (.num (data.length / size), d.puts 0 data)
  | .fputs string => (.code 0, d.puts 0 string)
  | .putc c => (.char (some c), d.put 0 c)
  | .fflush => (.none, d)
  | .fseek offset whence => let r := seek d offset whence; (.code r.1, r.2)
  | .ftell => (.code d.pos, d)
  | .rewind => (.none, d.goto 0)

/-- Reading or writing. -/
inductive Dir
  | input
  | output
deriving DecidableEq

/-- What a program knows of its use of a stream: the direction since the last seek, and the byte read last that may be
pushed back. -/
structure Usage where
  dir : Option Dir
  back : Option Byte

def Usage.new : Usage := ⟨none, none⟩

def Op.dir : Op → Option Dir
  | .fread _ _ | .fgets _ | .getc | .ungetc _ => some .input
  | .fwrite _ _ _ | .fputs _ | .putc _ => some .output
  | .fflush | .fseek _ _ | .ftell | .rewind => none

/-- The bytes that an operation delivered. -/
def Out.bytes : Out → List Byte
  | .items bytes _ => bytes
  | .line bytes => bytes.getD []
  | .char c => c.toList
  | .num _ | .code _ | .none => []

/-- The use after an operation with its result. -/
def Usage.after (u : Usage) (op : Op) (out : Out) : Usage :=
  match op with
  | .fread _ _ | .fgets _ | .getc => ⟨some .input, out.bytes.getLast?.or u.back⟩
  | .ungetc _ => ⟨some .input, none⟩
  | .fwrite _ _ _ | .fputs _ | .putc _ => ⟨some .output, none⟩
  | .fflush | .ftell => u
  | .fseek _ whence => if whence = 0 ∨ whence = 1 ∨ whence = 2 then Usage.new else u
  | .rewind => Usage.new

/-- The direction is one of the mode and changes only after a seek; a byte is pushed back only when it was read last;
sizes are below 2³¹, offsets are of type `long`. -/
def Usage.Allows (u : Usage) (mode : Mode) (op : Op) : Prop :=
  (∀ dir ∈ op.dir, (u.dir = none ∨ u.dir = some dir) ∧ (mode.plus = true ∨ mode.write = (dir == .output))) ∧
    match op with
    | .fread size num => size * num < 2 ^ 31
    | .fwrite data size num => data.length = size * num ∧ size * num < 2 ^ 31
    | .fputs string => string.length < 2 ^ 31
    | .ungetc c => u.back = some c
    | .fseek offset _ => -2 ^ 31 ≤ offset ∧ offset < 2 ^ 31
    | _ => True

/-- The operation does not drop bytes that the stream has read ahead without a seek that makes up for them. -/
def Keeps (s : Iobuf) (d : Cursor Byte) (op : Op) : Prop :=
  match op with
  | .fflush => s.wr = true ∨ s.cnt = 0
  | .fseek offset whence =>
    s.wr = true ∨ s.cnt = 0 ∨ 0 ≤ Direct.target d offset whence ∧ (whence = 1 → -2 ^ 31 ≤ offset - s.cnt)
  | _ => True

namespace Iobuf

variable {s : Iobuf} {p q m n : ℕ} {data : List Byte}

@[simp] theorem bytes_zero : s.bytes p 0 = [] := rfl

@[simp] theorem length_bytes : (s.bytes p n).length = n := by simp [bytes]

theorem bytes_add (s : Iobuf) (p m n : ℕ) : s.bytes p (m + n) = s.bytes p m ++ s.bytes (p + m) n := by
  unfold bytes
  rw [List.range_add, List.map_append, List.map_map]
  congr 1
  apply List.map_congr_left
  intro i _
  rw [Function.comp_apply, Nat.add_assoc]

theorem bytes_succ (s : Iobuf) (p n : ℕ) : s.bytes p (n + 1) = s.buf p :: s.bytes (p + 1) n := by
  rw [Nat.add_comm, bytes_add]
  rfl

theorem bytes_congr {t : Iobuf} (h : ∀ i, p ≤ i → i < p + n → t.buf i = s.buf i) : t.bytes p n = s.bytes p n := by
  apply List.map_congr_left
  intro i hi
  rw [List.mem_range] at hi
  exact h _ (Nat.le_add_right _ _) (Nat.add_lt_add_left hi _)

theorem bytes_fill_self (s : Iobuf) (p : ℕ) (data : List Byte) : (s.fill p data).bytes p data.length = data := by
  apply List.ext_getElem
  · simp
  · intro i hi hlt
    simp [bytes, fill, hlt]

theorem bytes_fill_of_le (h : q + n ≤ p) : (s.fill p data).bytes q n = s.bytes q n := by
  apply bytes_congr
  intro i _ hi
  have hout : ¬(p ≤ i ∧ i < p + data.length) := by omega
  simp only [fill, dif_neg hout]

theorem bytes_fill_of_ge (h : p + data.length ≤ q) : (s.fill p data).bytes q n = s.bytes q n := by
  apply bytes_congr
  intro i hi _
  have hout : ¬(p ≤ i ∧ i < p + data.length) := by omega
  simp only [fill, dif_neg hout]

end Iobuf

open Iobuf

/-- The flags that belong to the mode. -/
structure Flags (mode : Mode) (s : Iobuf) : Prop where
  rw : s.rw = mode.plus
  plain : mode.plus = false → s.rd = !mode.write ∧ s.wr = mode.write

/-- The stream `s`, in the midst of reading, stands for the file `d`. -/
structure Reading (mode : Mode) (s : Iobuf) (d : Cursor Byte) : Prop where
  flags : Flags mode s
  wr : s.wr = false
  items : s.file.items = d.items
  nonneg : 0 ≤ s.cnt
  pos : d.pos + s.cnt.toNat = s.file.pos
  buffered : s.bytes s.ptr s.cnt.toNat = d.ahead s.cnt.toNat
  owned : s.cnt ≠ 0 → s.ownbuf = true ∧ s.rd = true
  fits : s.ptr + s.cnt.toNat ≤ bufsiz

/-- A byte of the buffer in use has been delivered. -/
def Moved (s : Iobuf) : Prop := s.cnt ≠ 0 → 0 < s.ptr

variable (serve : ℕ → ℕ) {mode : Mode} {s : Iobuf} {d : Cursor Byte} {n count : ℕ} {c : Byte}

theorem Flags.reads (h : Flags mode s) (hwr : s.wr = false) {t : Iobuf} (hrw : t.rw = s.rw)
    (hrd : t.rd = true ∨ t.rd = s.rd) (hwr' : t.wr = s.wr) : Flags mode t := by
  refine ⟨hrw.trans h.rw, fun hplus => ?_⟩
  obtain ⟨hrds, hwrs⟩ := h.plain hplus
  have hmode : mode.write = false := hwrs.symm.trans hwr
  refine ⟨?_, hwr'.trans hwrs⟩
  rcases hrd with hrd | hrd
  · rw [hrd, hmode]
    rfl
  · rw [hrd, hrds]

theorem Reading.file (h : Reading mode s d) (hcnt : s.cnt = 0) : s.file = d := by
  have hpos := h.pos
  rw [hcnt] at hpos
  exact congrArg₂ Cursor.mk h.items hpos.symm

theorem read_ahead (s : Iobuf) (hn : 0 < n) :
    ∃ k ≤ n, (s.read serve n).1 = s.file.ahead k ∧ (s.file.ahead k).length = k ∧
      (k = 0 → s.file.items[s.file.pos]? = none) := by
  have hdata : (s.read serve n).1 = s.file.ahead (min (serve s.reads + 1) n) := Cursor.take_ahead
  have hlen : (s.read serve n).1.length = min (min (serve s.reads + 1) n) (s.file.items.length - s.file.pos) := by
    rw [hdata, Cursor.length_ahead]
  refine ⟨(s.read serve n).1.length, by omega, ?_, ?_, fun hzero => ?_⟩
  · rw [hlen, hdata, Cursor.ahead, Cursor.ahead, ← List.length_drop]
    rw [← List.take_eq_take_min]
  · rw [Cursor.length_ahead]
    omega
  · rw [List.getElem?_eq_none_iff]
    omega

/-- The state of `filbuf` before it reads. -/
def emptied (s : Iobuf) : Iobuf :=
  if s.ownbuf then { s with rd := true, ptr := 0 } else { s with rd := true }.getbuf

theorem filbuf_eq (hwr : s.wr = false) :
    s.filbuf serve =
      let r := (emptied s).read serve bufsiz
      if r.1.length = 0 then (none, { r.2 with eof := true, cnt := 0 })
      else
        let t := { r.2.fill 0 r.1 with cnt := r.1.length - 1, ptr := 1 }
        (some (t.buf 0), t) := by
  unfold Iobuf.filbuf emptied
  rw [hwr, if_neg Bool.false_ne_true]

/-- The next byte of the file is delivered, if there is one. -/
structure Delivers (mode : Mode) (d : Cursor Byte) (r : Option Byte × Iobuf) : Prop where
  char : r.1 = d.items[d.pos]?
  reading : Reading mode r.2 (d.goto (d.pos + r.1.toList.length))
  moved : Moved r.2

theorem filbuf_reads (h : Reading mode { s with cnt := 0 } d) : Delivers mode d (s.filbuf serve) := by
  have hfile : (emptied s).file = d := by
    have hd := h.file rfl
    unfold emptied
    split <;> exact hd
  have hflags (t : Iobuf) (hrw : t.rw = (emptied s).rw) (hrd : t.rd = (emptied s).rd) (hwr : t.wr = (emptied s).wr) :
      Flags mode t := by
    refine h.flags.reads h.wr ?_ (Or.inl ?_) ?_
    · rw [hrw]
      unfold emptied
      split <;> rfl
    · rw [hrd]
      unfold emptied
      split <;> rfl
    · rw [hwr]
      unfold emptied
      split <;> rfl
  have hown : (emptied s).ownbuf = true ∧ (emptied s).rd = true ∧ (emptied s).wr = false := by
    have hwr := h.wr
    unfold emptied
    split
    · next hown => exact ⟨hown, rfl, hwr⟩
    · exact ⟨rfl, rfl, hwr⟩
  obtain ⟨hown, hrd, hwr⟩ := hown
  rw [filbuf_eq serve (s := s) h.wr]
  obtain ⟨k, hk, hdata, hlen, hend⟩ := read_ahead serve (emptied s) (by decide : 0 < bufsiz)
  rw [hfile] at hdata hlen hend
  have hfiler : ((emptied s).read serve bufsiz).2.file = d.goto (d.pos + k) := by
    change (emptied s).file.goto ((emptied s).file.pos + ((emptied s).read serve bufsiz).1.length) = _
    rw [hfile, hdata, hlen]
  dsimp only
  rw [hdata, hlen]
  cases k with
  | zero =>
    rw [if_pos rfl]
    refine ⟨(hend rfl).symm, ⟨hflags _ rfl rfl rfl, hwr, ?_, Int.le_refl 0, ?_, ?_, fun hne => absurd rfl hne, ?_⟩,
      fun hne => absurd rfl hne⟩
    · rw [hfiler]
      rfl
    · rw [hfiler]
      rfl
    · simp
    · have hptr : ((emptied s).read serve bufsiz).2.ptr = 0 := by
        unfold emptied
        split <;> rfl
      dsimp only
      rw [hptr]
      decide
  | succ j =>
    obtain ⟨x, hx⟩ : ∃ x, d.items[d.pos]? = some x := by
      cases hx : d.items[d.pos]? with
      | none =>
        rw [Cursor.ahead_none hx] at hlen
        exact absurd hlen.symm (Nat.succ_ne_zero j)
      | some x => exact ⟨x, rfl⟩
    have hwhole : (((emptied s).read serve bufsiz).2.fill 0 (d.ahead (j + 1))).bytes 0 (j + 1) = d.ahead (j + 1) := by
      have hself := bytes_fill_self ((emptied s).read serve bufsiz).2 0 (d.ahead (j + 1))
      rwa [hlen] at hself
    rw [bytes_succ, Cursor.ahead_succ hx] at hwhole
    obtain ⟨hhead, htail⟩ := List.cons.inj hwhole
    have hcnt : ((j + 1 : ℕ) : ℤ) - 1 = j := by omega
    rw [hcnt, Cursor.ahead_succ hx]
    refine ⟨?_, ⟨hflags _ rfl rfl rfl, hwr, ?_, ?_, ?_, ?_, fun _ => ⟨hown, hrd⟩, ?_⟩, fun _ => Nat.one_pos⟩
    · rw [hx]
      exact congrArg some hhead
    · change ((emptied s).read serve bufsiz).2.file.items = _
      rw [hfiler]
      rfl
    · exact Int.natCast_nonneg j
    · change d.pos + 1 + ((j : ℤ)).toNat = ((emptied s).read serve bufsiz).2.file.pos
      rw [hfiler, Cursor.goto_pos]
      omega
    · exact htail
    · change 1 + ((j : ℤ)).toNat ≤ bufsiz
      omega

section
variable (h : Reading mode s d)
include h

theorem Reading.advance {k : ℕ} (hk : (k : ℤ) ≤ s.cnt) :
    s.bytes s.ptr k = d.ahead k ∧
      Reading mode { s with cnt := s.cnt - k, ptr := s.ptr + k } (d.goto (d.pos + k)) := by
  obtain ⟨n, hn⟩ : ∃ n, s.cnt.toNat = k + n := ⟨s.cnt.toNat - k, by omega⟩
  have hbuffered := h.buffered
  rw [hn] at hbuffered
  have hlen := congrArg List.length hbuffered
  rw [length_bytes, Cursor.length_ahead] at hlen
  have hk' : (d.ahead k).length = k := by
    rw [Cursor.length_ahead]
    omega
  rw [bytes_add, Cursor.ahead_split (Nat.le_add_right k n), Nat.add_sub_cancel_left] at hbuffered
  obtain ⟨hfirst, hrest⟩ := List.append_inj hbuffered (by rw [length_bytes, hk'])
  have hleft : (s.cnt - k).toNat = n := by omega
  refine ⟨hfirst, ⟨h.flags.rw, h.flags.plain⟩, h.wr, h.items, by dsimp only; omega, ?_, ?_, ?_, ?_⟩
  · have hpos := h.pos
    dsimp only
    rw [Cursor.goto_pos]
    omega
  · rw [hleft]
    exact hrest
  · intro hne
    refine h.owned fun hzero => hne ?_
    dsimp only
    omega
  · have hfits := h.fits
    dsimp only
    omega

theorem Reading.spent (hcnt : s.cnt = 0) (c : ℤ) :
    Reading mode { { s with cnt := c } with cnt := 0 } d := by
  have hsame : ({ { s with cnt := c } with cnt := 0 } : Iobuf) = s := by
    cases s
    cases hcnt
    rfl
  rwa [hsame]

theorem getc_reads : Delivers mode d (s.getc serve) := by
  unfold Iobuf.getc
  have hnonneg := h.nonneg
  by_cases hcnt : s.cnt = 0
  · have hneg : ¬ 0 ≤ s.cnt - 1 := by omega
    simp only [if_neg hneg]
    exact filbuf_reads serve (h.spent hcnt _)
  · have hpos : 0 ≤ s.cnt - 1 := by omega
    simp only [if_pos hpos]
    obtain ⟨hbyte, hreading⟩ := h.advance (k := 1) (by omega)
    refine ⟨?_, hreading, fun _ => Nat.succ_pos _⟩
    have hget := congrArg (fun l => l[0]?) hbyte
    rw [Cursor.getElem?_ahead Nat.one_pos] at hget
    exact hget

theorem fgetsLoop_reads (n : ℕ) :
    (s.fgetsLoop serve n).1 = (Direct.line d n).1 ∧
      Reading mode (s.fgetsLoop serve n).2 (Direct.line d n).2 ∧
      (s.fgetsLoop serve n = ([], s) ∨ Moved (s.fgetsLoop serve n).2) := by
  induction n generalizing s d with
  | zero => exact ⟨rfl, h, Or.inl rfl⟩
  | succ n ih =>
    obtain ⟨hchar, hreading, hmoved⟩ := getc_reads serve h
    unfold Iobuf.fgetsLoop Direct.line
    rw [← hchar]
    rcases hget : s.getc serve with ⟨_ | c, s'⟩
    · rw [hget] at hreading hmoved
      exact ⟨rfl, hreading, Or.inr hmoved⟩
    · rw [hget] at hreading hmoved
      by_cases hc : c = 10
      · simp only [if_pos hc]
        exact ⟨trivial, hreading, Or.inr hmoved⟩
      · simp only [if_neg hc]
        obtain ⟨hbytes, hrest, hlast⟩ := ih hreading
        refine ⟨congrArg (List.cons c) hbytes, hrest, Or.inr ?_⟩
        rcases hlast with hsame | hlast
        · rw [hsame]
          exact hmoved
        · exact hlast

/-- One turn of the loop delivers some of the bytes that are asked for, and none only at the end of the file. -/
theorem freadTurn_reads (hcount : 0 < count) :
    ∃ k ≤ count, (s.freadTurn serve count).1 = d.ahead k ∧ (d.ahead k).length = k ∧
      (k = 0 → d.items[d.pos]? = none) ∧
      Reading mode (s.freadTurn serve count).2 (d.goto (d.pos + k)) ∧ Moved (s.freadTurn serve count).2 := by
  have hnonneg := h.nonneg
  unfold Iobuf.freadTurn
  by_cases hbuf : s.ownbuf = true ∧ s.cnt ≠ 0
  · have hlt : s.cnt < 2 ^ 32 := by
      have hfits := h.fits
      have hsize : bufsiz = 512 := rfl
      omega
    have hroom : s.room count = min count s.cnt.toNat := by
      rw [room, Int.emod_eq_of_lt hnonneg hlt]
    obtain ⟨hbytes, hreading⟩ := h.advance (k := s.room count) (by omega)
    rw [if_pos hbuf]
    refine ⟨s.room count, by omega, hbytes, ?_, by omega, hreading, fun _ => ?_⟩
    · rw [← hbytes, length_bytes]
    · dsimp only
      omega
  have hcnt : s.cnt = 0 := by
    by_contra hne
    exact hbuf ⟨(h.owned hne).1, hne⟩
  rw [if_neg hbuf]
  have hfile := h.file hcnt
  by_cases hbig : bufsiz ≤ count
  · have hmod := Nat.mod_lt count (by decide : 0 < bufsiz)
    obtain ⟨k, hk, hdata, hlen, hend⟩ := read_ahead serve s (n := count - count % bufsiz) (by omega)
    rw [hfile] at hdata hlen hend
    rw [if_pos hbig]
    refine ⟨k, by omega, hdata, hlen, hend, ?_, ?_⟩
    · have hfiler : (s.read serve (count - count % bufsiz)).2.file = d.goto (d.pos + k) := by
        change s.file.goto (s.file.pos + (s.read serve (count - count % bufsiz)).1.length) = _
        rw [hfile, hdata, hlen]
      have hread : Reading mode (s.read serve (count - count % bufsiz)).2 (d.goto (d.pos + k)) := by
        refine ⟨⟨h.flags.rw, h.flags.plain⟩, h.wr, by rw [hfiler], h.nonneg, ?_, ?_, h.owned, h.fits⟩
        · change _ + s.cnt.toNat = _
          rw [hcnt, hfiler]
          rfl
        · change Iobuf.bytes _ _ s.cnt.toNat = Cursor.ahead _ s.cnt.toNat
          rw [hcnt]
          simp
      dsimp only
      split
      · exact ⟨⟨hread.flags.rw, hread.flags.plain⟩, hread.wr, hread.items, hread.nonneg, hread.pos, hread.buffered,
          hread.owned, hread.fits⟩
      · exact hread
    · have hzero : (s.read serve (count - count % bufsiz)).2.cnt = 0 := hcnt
      dsimp only
      split <;> exact fun hne => absurd hzero hne
  · rw [if_neg hbig]
    obtain ⟨hchar, hreading, hmoved⟩ := filbuf_reads serve (h.spent hcnt s.cnt)
    cases hx : d.items[d.pos]? with
    | none =>
      rw [hchar, hx] at hreading
      refine ⟨0, Nat.zero_le _, ?_, rfl, fun _ => rfl, hreading, hmoved⟩
      change (s.filbuf serve).1.toList = _
      rw [hchar, hx]
      rfl
    | some x =>
      rw [hchar, hx] at hreading
      have hone : d.ahead 1 = [x] := Cursor.ahead_succ hx
      refine ⟨1, hcount, ?_, by rw [hone]; rfl, fun hno => absurd hno Nat.one_ne_zero, hreading, hmoved⟩
      change (s.filbuf serve).1.toList = _
      rw [hchar, hx, hone]
      rfl

theorem freadLoop_reads {turns : ℕ} (hturns : count ≤ turns) :
    (freadLoop serve turns s count).1 = d.ahead count ∧
      Reading mode (freadLoop serve turns s count).2 (d.goto (d.pos + (d.ahead count).length)) ∧
      (0 < count → Moved (freadLoop serve turns s count).2) := by
  induction turns generalizing s d count with
  | zero =>
    obtain rfl := Nat.le_zero.mp hturns
    exact ⟨rfl, h, fun hpos => absurd hpos (Nat.lt_irrefl 0)⟩
  | succ turns ih =>
    unfold freadLoop
    by_cases hzero : count = 0
    · rw [hzero]
      exact ⟨rfl, h, fun hpos => absurd hpos (Nat.lt_irrefl 0)⟩
    rw [if_neg hzero]
    obtain ⟨k, hk, hbytes, hlen, hend, hreading, hmoved⟩ := freadTurn_reads serve h (Nat.pos_of_ne_zero hzero)
    by_cases hnone : k = 0
    · have hnil : d.ahead count = [] := Cursor.ahead_none (hend hnone)
      have hturn : (s.freadTurn serve count).1 = [] := by rw [hbytes, hnone, Cursor.ahead_zero]
      simp only [if_pos hturn]
      rw [hnone] at hreading
      rw [hturn, hnil]
      exact ⟨rfl, hreading, fun _ => hmoved⟩
    · have hturn : (s.freadTurn serve count).1 ≠ [] := by
        intro hnil
        rw [hbytes] at hnil
        rw [hnil] at hlen
        exact hnone hlen.symm
      simp only [if_neg hturn]
      have hleft : count - k ≤ turns := by omega
      obtain ⟨hrest, hreading', hmoved'⟩ := ih hreading hleft
      have hsplit : d.ahead count = d.ahead k ++ (d.goto (d.pos + k)).ahead (count - k) := Cursor.ahead_split hk
      rw [hbytes, hlen, hrest, hsplit, List.length_append, hlen]
      rw [Cursor.goto_pos, Nat.add_assoc] at hreading'
      refine ⟨rfl, hreading', fun _ => ?_⟩
      by_cases hdone : count - k = 0
      · rw [hdone]
        cases turns <;> exact hmoved
      · exact hmoved' (Nat.pos_of_ne_zero hdone)

theorem fread_reads {size num : ℕ} (hlt : size * num < 2 ^ 31) :
    (s.fread serve size num).1 = (d.ahead (size * num), (d.ahead (size * num)).length / size) ∧
      Reading mode (s.fread serve size num).2 (d.goto (d.pos + (d.ahead (size * num)).length)) ∧
      ((s.fread serve size num).2 = s ∨ Moved (s.fread serve size num).2) := by
  have htotal : size * num % 2 ^ 32 = size * num := Nat.mod_eq_of_lt (by omega)
  unfold Iobuf.fread
  rw [htotal]
  by_cases hzero : size * num = 0
  · rw [hzero, Cursor.ahead_zero, List.length_nil, Nat.zero_div]
    exact ⟨rfl, h, Or.inl rfl⟩
  obtain ⟨hbytes, hreading, hmoved⟩ := freadLoop_reads serve h (Nat.le_refl (size * num))
  rw [if_neg hzero]
  refine ⟨?_, hreading, Or.inr (hmoved (Nat.pos_of_ne_zero hzero))⟩
  dsimp only
  rw [hbytes]
  by_cases hall : (d.ahead (size * num)).length = size * num
  · have hsize : 0 < size := by
      by_contra hno
      exact hzero (by rw [Nat.eq_zero_of_not_pos hno, Nat.zero_mul])
    rw [if_pos hall, hall, Nat.mul_div_cancel_left num hsize]
  · rw [if_neg hall]

end

/-- The byte that was read last lies before the position, in the buffer if one is in use. -/
def CanPushBack (s : Iobuf) (d : Cursor Byte) (c : Byte) : Prop :=
  0 < d.pos ∧ d.items[d.pos - 1]? = some c ∧ Moved s

theorem Reading.pushed (h : Reading mode s d) (hown : s.ownbuf = true) (hpos : 0 < d.pos)
    (hbyte : d.items[d.pos - 1]? = some c) {p : ℕ} (hp : 0 < p) (hplace : p = s.ptr ∨ p = 1 ∧ s.cnt = 0) :
    Reading mode { s.fill (p - 1) [c] with ptr := p - 1, cnt := s.cnt + 1, eof := false, rd := true }
      (d.goto (d.pos - 1)) := by
  have hnonneg := h.nonneg
  have hcnt : (s.cnt + 1).toNat = s.cnt.toNat + 1 := by omega
  have hfirst : (s.fill (p - 1) [c]).buf (p - 1) = c := (List.cons.inj (bytes_fill_self s (p - 1) [c])).1
  have hrest : (s.fill (p - 1) [c]).bytes (p - 1 + 1) s.cnt.toNat = d.ahead s.cnt.toNat := by
    have hbehind : p - 1 + [c].length ≤ p - 1 + 1 := Nat.le_refl _
    rw [bytes_fill_of_ge hbehind, Nat.sub_add_cancel hp]
    rcases hplace with rfl | ⟨-, hzero⟩
    · exact h.buffered
    · rw [hzero]
      simp
  refine ⟨h.flags.reads h.wr rfl (Or.inl rfl) rfl, h.wr, h.items, by dsimp only; omega, ?_, ?_,
    fun _ => ⟨hown, rfl⟩, ?_⟩
  · have hfile := h.pos
    rw [hcnt, Cursor.goto_pos]
    change _ = s.file.pos
    omega
  · have hahead : (d.goto (d.pos - 1)).ahead (s.cnt.toNat + 1) = c :: d.ahead s.cnt.toNat := by
      have hback := Cursor.ahead_succ (c := d.goto (d.pos - 1)) (n := s.cnt.toNat) hbyte
      rw [Cursor.goto_pos, Nat.sub_add_cancel hpos] at hback
      exact hback
    change (s.fill (p - 1) [c]).bytes (p - 1) (s.cnt + 1).toNat = Cursor.ahead _ (s.cnt + 1).toNat
    rw [hcnt, bytes_succ, hfirst, hrest, hahead]
  · have hfits := h.fits
    have hsize : bufsiz = 512 := rfl
    dsimp only
    omega

theorem ungetc_reads (h : Reading mode s d) (hmode : mode.plus = true ∨ mode.write = false)
    (hback : CanPushBack s d c) :
    (s.ungetc c).1 = some c ∧ Reading mode (s.ungetc c).2 (d.goto (d.pos - 1)) := by
  obtain ⟨hpos, hbyte, hmoved⟩ := hback
  have hreads : (!(s.rd || s.rw && !s.wr)) = false := by
    rw [h.wr, h.flags.rw]
    cases hplus : mode.plus with
    | true => simp
    | false =>
      have hrd := (h.flags.plain hplus).1
      rw [hplus] at hmode
      rw [hrd, hmode.resolve_left Bool.false_ne_true]
      rfl
  -- the buffer, which may be new
  obtain ⟨t, ht, hr, hown, hsame⟩ : ∃ t, (if s.ownbuf then s else s.getbuf) = t ∧ Reading mode t d ∧
      t.ownbuf = true ∧ Moved t := by
    refine ⟨_, rfl, ?_⟩
    split
    · next hown => exact ⟨h, hown, hmoved⟩
    · next hown =>
      have hcnt : s.cnt = 0 := by
        by_contra hne
        exact hown (h.owned hne).1
      have hfile := h.file hcnt
      refine ⟨⟨⟨h.flags.rw, h.flags.plain⟩, h.wr, h.items, Int.le_refl 0, ?_, ?_, fun hne => absurd rfl hne,
        Nat.zero_le _⟩, rfl, fun hne => absurd rfl hne⟩
      · change d.pos = s.file.pos
        rw [hfile]
      · simp [getbuf]
  unfold Iobuf.ungetc
  rw [hreads, if_neg Bool.false_ne_true, ht]
  have hfree : ¬(t.ptr = 0 ∧ t.cnt ≠ 0) := by
    rintro ⟨hzero, hne⟩
    have hptr := hsame hne
    omega
  simp only [if_neg hfree]
  by_cases hzero : t.ptr = 0
  · have hcnt : t.cnt = 0 := by
      by_contra hne
      exact hfree ⟨hzero, hne⟩
    simp only [if_pos hzero]
    exact ⟨trivial, hr.pushed hown hpos hbyte (Nat.succ_pos _) (Or.inr ⟨congrArg (· + 1) hzero, hcnt⟩)⟩
  · simp only [if_neg hzero]
    exact ⟨trivial, hr.pushed hown hpos hbyte (Nat.pos_of_ne_zero hzero) (Or.inl rfl)⟩

end SimpleKernel.Stdio

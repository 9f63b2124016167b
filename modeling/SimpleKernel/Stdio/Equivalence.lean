import SimpleKernel.Stdio.Writing

/-! A buffered stream and the file without a buffer, operation by operation. -/
namespace SimpleKernel.Stdio
open Iobuf

variable (serve : ℕ → ℕ) {mode : Mode} {s : Iobuf} {d : Cursor Byte} {u : Usage} {op : Op} {c : Byte}

/-- The mode of a stream that may read. -/
def MayRead (mode : Mode) : Prop := mode.plus = true ∨ mode.write = false

/-- The stream has just been opened or positioned. -/
structure Fresh (mode : Mode) (s : Iobuf) (d : Cursor Byte) : Prop where
  flags : Flags mode s
  file : s.file = d
  ptr : s.ptr = 0
  cnt : s.cnt = 0
  neither : mode.plus = true → s.rd = false ∧ s.wr = false

theorem Fresh.reading (h : Fresh mode s d) (hmode : MayRead mode) : Reading mode s d := by
  have hwr : s.wr = false := by
    cases hplus : mode.plus with
    | true => exact (h.neither hplus).2
    | false => exact (h.flags.plain hplus).2.trans (hmode.resolve_left (by rw [hplus]; exact Bool.false_ne_true))
  have hcnt : s.cnt.toNat = 0 := by rw [h.cnt, Int.toNat_zero]
  refine ⟨h.flags, hwr, by rw [h.file], Int.le_of_eq h.cnt.symm, ?_, ?_, fun hne => absurd h.cnt hne, ?_⟩
  · rw [hcnt, h.file, Nat.add_zero]
  · rw [hcnt, bytes_zero, Cursor.ahead_zero]
  · rw [hcnt, h.ptr]
    exact Nat.zero_le _

theorem Fresh.writing (h : Fresh mode s d) (hmode : MayWrite mode) : Writing mode s d := by
  have hrd : s.rd = false := by
    cases hplus : mode.plus with
    | true => exact (h.neither hplus).1
    | false =>
      have hwrite : mode.write = true := hmode.resolve_left (by rw [hplus]; exact Bool.false_ne_true)
      rw [(h.flags.plain hplus).1, hwrite, Bool.not_true]
  exact Writing.empty h.flags hrd h.file h.ptr h.cnt

/-- The stream `s` stands for the file `d`, whatever the use has been. -/
inductive Stands (mode : Mode) (s : Iobuf) (d : Cursor Byte) : Usage → Prop
  | fresh : Fresh mode s d → Stands mode s d ⟨none, none⟩
  | input (back : Option Byte) : MayRead mode → Reading mode s d → (∀ c, back = some c → CanPushBack s d c) →
      Stands mode s d ⟨some .input, back⟩
  | output : MayWrite mode → Writing mode s d → Stands mode s d ⟨some .output, none⟩

theorem stands_fopen (mode : Mode) (items : List Byte) :
    Stands mode (fopen mode items) ⟨if mode.write then [] else items, 0⟩ Usage.new := by
  refine Stands.fresh ⟨⟨rfl, fun hplus => ?_⟩, rfl, rfl, rfl, fun hplus => ?_⟩
  · simp [fopen, hplus]
  · simp [fopen, hplus]

theorem Stands.reading (h : Stands mode s d u) (hdir : u.dir = none ∨ u.dir = some .input) (hmode : MayRead mode) :
    Reading mode s d ∧ ∀ c, u.back = some c → CanPushBack s d c := by
  cases h with
  | fresh h => exact ⟨h.reading hmode, fun c hc => nomatch hc⟩
  | input back _ h hback => exact ⟨h, hback⟩
  | output => simp at hdir

theorem Stands.writing (h : Stands mode s d u) (hdir : u.dir = none ∨ u.dir = some .output) (hmode : MayWrite mode) :
    Writing mode s d := by
  cases h with
  | fresh h => exact h.writing hmode
  | input => simp at hdir
  | output _ h => exact h

/-! Reads. -/

theorem pushBack_after {s' : Iobuf} {back : Option Byte} {n : ℕ} (h : Reading mode s d)
    (h' : Reading mode s' (d.goto (d.pos + (d.ahead n).length))) (hback : ∀ c, back = some c → CanPushBack s d c)
    (hmoved : s' = s ∨ Moved s') :
    ∀ c, (d.ahead n).getLast?.or back = some c → CanPushBack s' (d.goto (d.pos + (d.ahead n).length)) c := by
  intro c hc
  by_cases hnil : d.ahead n = []
  · rw [hnil] at hc ⊢
    obtain ⟨hpos, hbyte, hold⟩ := hback c hc
    refine ⟨hpos, hbyte, ?_⟩
    rcases hmoved with rfl | hmoved
    · exact hold
    · exact hmoved
  · have hlen : 0 < (d.ahead n).length := List.length_pos_of_ne_nil hnil
    have hle : (d.ahead n).length ≤ n := by
      rw [Cursor.length_ahead]
      exact Nat.min_le_left _ _
    rw [List.getLast?_eq_getElem?, Cursor.getElem?_ahead (by omega)] at hc
    have hplace : d.pos + ((d.ahead n).length - 1) = d.pos + (d.ahead n).length - 1 := by omega
    have hsome : d.items[d.pos + (d.ahead n).length - 1]? = some c := by
      rw [← hplace]
      cases hx : d.items[d.pos + ((d.ahead n).length - 1)]? with
      | none =>
        have hend := List.getElem?_eq_none_iff.mp hx
        have hall := Cursor.length_ahead (c := d) (n := n)
        omega
      | some x =>
        rw [hx] at hc
        exact hc
    refine ⟨by rw [Cursor.goto_pos]; omega, hsome, ?_⟩
    rcases hmoved with rfl | hmoved
    · have hpos := h.pos
      have hpos' := h'.pos
      rw [Cursor.goto_pos] at hpos'
      omega
    · exact hmoved

theorem line_eq (d : Cursor Byte) (n : ℕ) :
    (Direct.line d n).1 = d.ahead (Direct.line d n).1.length ∧
      (Direct.line d n).2 = d.goto (d.pos + (Direct.line d n).1.length) := by
  induction n generalizing d with
  | zero => exact ⟨Cursor.ahead_zero.symm, rfl⟩
  | succ n ih =>
    unfold Direct.line
    cases hx : d.items[d.pos]? with
    | none => exact ⟨Cursor.ahead_zero.symm, rfl⟩
    | some x =>
      by_cases hnew : x = 10
      · simp only [if_pos hnew]
        exact ⟨(Cursor.ahead_succ (n := 0) hx).symm, rfl⟩
      · obtain ⟨hbytes, hend⟩ := ih (d.goto (d.pos + 1))
        simp only [if_neg hnew]
        rw [List.length_cons, Cursor.ahead_succ hx, ← hbytes, hend, Cursor.goto_goto, Cursor.goto_pos]
        refine ⟨rfl, ?_⟩
        congr 1
        omega

/-- The results of an operation on the stream and on the file agree. -/
structure Agrees (mode : Mode) (u : Usage) (op : Op) (r : Out × Iobuf) (q : Out × Cursor Byte) : Prop where
  out : r.1 = q.1
  stands : Stands mode r.2 q.2 (u.after op q.1)

theorem agrees_read {s' : Iobuf} {out : Out} {k : ℕ} (hmode : MayRead mode) (hread : Reading mode s d)
    (hback : ∀ c, u.back = some c → CanPushBack s d c)
    (hafter : u.after op out = ⟨some .input, out.bytes.getLast?.or u.back⟩) (hout : out.bytes = d.ahead k)
    (hreading : Reading mode s' (d.goto (d.pos + (d.ahead k).length))) (hmoved : s' = s ∨ Moved s') :
    Agrees mode u op (out, s') (out, d.goto (d.pos + (d.ahead k).length)) := by
  refine ⟨rfl, ?_⟩
  rw [hafter, hout]
  exact Stands.input _ hmode hreading (pushBack_after hread hreading hback hmoved)

theorem fread_step {size num : ℕ} (h : Stands mode s d u) (hallow : u.Allows mode (.fread size num)) :
    Agrees mode u (.fread size num) ((Op.fread size num).exec serve s) ((Op.fread size num).direct d) := by
  obtain ⟨hdir, hmode⟩ := hallow.1 .input rfl
  obtain ⟨hread, hback⟩ := h.reading hdir hmode
  obtain ⟨hbytes, hreading, hmoved⟩ := fread_reads serve hread hallow.2
  have hdirect : (Op.fread size num).direct d =
      (.items (d.ahead (size * num)) ((d.ahead (size * num)).length / size),
        d.goto (d.pos + (d.ahead (size * num)).length)) := by
    change (Out.items (d.takes _).1 _, (d.takes _).2) = _
    rw [Cursor.takes_eq]
  have hexec : (Op.fread size num).exec serve s =
      (.items (s.fread serve size num).1.1 (s.fread serve size num).1.2, (s.fread serve size num).2) := rfl
  rw [hdirect, hexec, hbytes]
  exact agrees_read hmode hread hback rfl rfl hreading hmoved

theorem getc_step (h : Stands mode s d u) (hallow : u.Allows mode .getc) :
    Agrees mode u .getc (Op.getc.exec serve s) (Op.getc.direct d) := by
  obtain ⟨hdir, hmode⟩ := hallow.1 .input rfl
  obtain ⟨hread, hback⟩ := h.reading hdir hmode
  obtain ⟨hchar, hreading, hmoved⟩ := getc_reads serve hread
  have hone : (d.items[d.pos]?).toList = d.ahead 1 := by
    cases hx : d.items[d.pos]? with
    | none => exact (Cursor.ahead_none hx).symm
    | some x => exact (Cursor.ahead_succ (n := 0) hx).symm
  have hhead : (d.ahead 1).head? = d.items[d.pos]? := by
    rw [← hone]
    cases d.items[d.pos]? <;> rfl
  have hdirect : Op.getc.direct d = (.char (d.items[d.pos]?), d.goto (d.pos + (d.ahead 1).length)) := by
    change (Out.char (d.takes 1).1.head?, (d.takes 1).2) = _
    rw [Cursor.takes_eq]
    rw [hhead]
  have hexec : Op.getc.exec serve s = (.char (s.getc serve).1, (s.getc serve).2) := rfl
  rw [hchar, hone] at hreading
  rw [hdirect, hexec, hchar]
  exact agrees_read hmode hread hback rfl hone hreading (Or.inr hmoved)

theorem fgets_step {n : ℤ} (h : Stands mode s d u) (hallow : u.Allows mode (.fgets n)) :
    Agrees mode u (.fgets n) ((Op.fgets n).exec serve s) ((Op.fgets n).direct d) := by
  obtain ⟨hdir, hmode⟩ := hallow.1 .input rfl
  obtain ⟨hread, hback⟩ := h.reading hdir hmode
  by_cases hn : n ≤ 0
  · have hnone : (n - 1).toNat = 0 := by omega
    have hdirect : (Op.fgets n).direct d = (.line none, d) := by
      change (Out.line (if _ then none else _), (Direct.line d _).2) = _
      rw [if_pos (Or.inl hn), hnone]
      rfl
    have hexec : (Op.fgets n).exec serve s = (.line none, s) := by
      change (Out.line (s.fgets serve n).1, (s.fgets serve n).2) = _
      unfold Iobuf.fgets
      rw [if_pos hn]
    rw [hdirect, hexec]
    exact ⟨rfl, Stands.input _ hmode hread hback⟩
  obtain ⟨hbytes, hreading, hmoved⟩ := fgetsLoop_reads serve hread (n - 1).toNat
  obtain ⟨hahead, hend⟩ := line_eq d (n - 1).toNat
  have hexec : (Op.fgets n).exec serve s =
      (.line (if (s.fgetsLoop serve (n - 1).toNat).1 = [] ∧ n ≠ 1 then none
          else some (s.fgetsLoop serve (n - 1).toNat).1), (s.fgetsLoop serve (n - 1).toNat).2) := by
    change (Out.line (s.fgets serve n).1, (s.fgets serve n).2) = _
    unfold Iobuf.fgets
    rw [if_neg hn]
  have hdirect : (Op.fgets n).direct d =
      (.line (if (Direct.line d (n - 1).toNat).1 = [] ∧ n ≠ 1 then none else some (Direct.line d (n - 1).toNat).1),
        (Direct.line d (n - 1).toNat).2) := by
    change (Out.line (if _ then none else _), _) = _
    simp only [hn, false_or]
  rw [hexec, hdirect, hbytes, hend]
  rw [hend] at hreading
  have hmoved' : (s.fgetsLoop serve (n - 1).toNat).2 = s ∨ Moved (s.fgetsLoop serve (n - 1).toNat).2 := by
    rcases hmoved with hsame | hmoved
    · exact Or.inl (congrArg Prod.snd hsame)
    · exact Or.inr hmoved
  generalize (Direct.line d (n - 1).toNat).1 = l at hahead hreading ⊢
  have hdelivered : (Out.line (if l = [] ∧ n ≠ 1 then none else some l)).bytes = d.ahead l.length := by
    rw [← hahead]
    by_cases hnil : l = [] ∧ n ≠ 1
    · rw [if_pos hnil]
      exact hnil.1.symm
    · rw [if_neg hnil]
      rfl
  rw [hahead] at hreading
  have hagrees := agrees_read hmode hread hback (show u.after (.fgets n) _ = _ from rfl) hdelivered
    hreading hmoved'
  rwa [← hahead] at hagrees

theorem ungetc_step (h : Stands mode s d u) (hallow : u.Allows mode (.ungetc c)) :
    Agrees mode u (.ungetc c) ((Op.ungetc c).exec serve s) ((Op.ungetc c).direct d) := by
  obtain ⟨hdir, hmode⟩ := hallow.1 .input rfl
  obtain ⟨hread, hback⟩ := h.reading hdir hmode
  obtain ⟨hchar, hreading⟩ := ungetc_reads hread hmode (hback c hallow.2)
  have hexec : (Op.ungetc c).exec serve s = (.char (s.ungetc c).1, (s.ungetc c).2) := rfl
  rw [hexec, hchar]
  exact ⟨rfl, Stands.input none hmode hreading fun c hc => nomatch hc⟩

/-! Writes. -/

theorem fwrite_step {data : List Byte} {size num : ℕ} (h : Stands mode s d u)
    (hallow : u.Allows mode (.fwrite data size num)) :
    Agrees mode u (.fwrite data size num) ((Op.fwrite data size num).exec serve s)
      ((Op.fwrite data size num).direct d) := by
  obtain ⟨hdir, hmode⟩ := hallow.1 .output rfl
  obtain ⟨hnum, hwriting⟩ := fwrite_writes (h.writing hdir hmode) hmode hallow.2.1 hallow.2.2
  have hexec : (Op.fwrite data size num).exec serve s =
      (.num (s.fwrite data size num).1, (s.fwrite data size num).2) := rfl
  rw [hexec, hnum]
  exact ⟨rfl, Stands.output hmode hwriting⟩

theorem fputs_step {string : List Byte} (h : Stands mode s d u) (hallow : u.Allows mode (.fputs string)) :
    Agrees mode u (.fputs string) ((Op.fputs string).exec serve s) ((Op.fputs string).direct d) := by
  obtain ⟨hdir, hmode⟩ := hallow.1 .output rfl
  obtain ⟨hcode, hwriting⟩ := fputs_writes (h.writing hdir hmode) hmode hallow.2
  have hexec : (Op.fputs string).exec serve s = (.code (s.fputs string).1, (s.fputs string).2) := rfl
  rw [hexec, hcode]
  exact ⟨rfl, Stands.output hmode hwriting⟩

theorem putc_step (h : Stands mode s d u) (hallow : u.Allows mode (.putc c)) :
    Agrees mode u (.putc c) ((Op.putc c).exec serve s) ((Op.putc c).direct d) := by
  obtain ⟨hdir, hmode⟩ := hallow.1 .output rfl
  obtain ⟨hchar, hwriting⟩ := putc_writes (h.writing hdir hmode) hmode c
  have hexec : (Op.putc c).exec serve s = (.char (s.putc c).1, (s.putc c).2) := rfl
  rw [hexec, hchar]
  exact ⟨rfl, Stands.output hmode hwriting⟩

/-! Flushing and positioning. -/

theorem Stands.flags (h : Stands mode s d u) : Flags mode s := by
  cases h with
  | fresh h => exact h.flags
  | input _ _ h _ => exact h.flags
  | output _ h => exact h.flags

theorem fflush_step (h : Stands mode s d u) (hkeep : Keeps s d .fflush) :
    Agrees mode u .fflush (Op.fflush.exec serve s) (Op.fflush.direct d) := by
  obtain ⟨hptr, hcnt, hrd, -, -, -, hidle⟩ := fflush_keeps s
  refine ⟨rfl, ?_⟩
  cases h with
  | fresh h =>
    have hfile : s.fflush.file = s.file := by
      have hnot : ¬(s.rd = false ∧ s.wr = true ∧ s.ownbuf = true ∧ 0 < s.ptr) := by
        rintro ⟨-, -, -, hpos⟩
        exact absurd h.ptr (Nat.ne_of_gt hpos)
      rw [fflush_eq, if_neg hnot]
    refine Stands.fresh ⟨h.flags.flushed, hfile.trans h.file, hptr, hcnt, fun hplus => ?_⟩
    obtain ⟨hrds, hwrs⟩ := h.neither hplus
    exact ⟨hrd.trans hrds, (hidle hwrs).1⟩
  | input back hmode h hback =>
    have hnone : s.cnt = 0 := hkeep.resolve_left (by rw [h.wr]; exact Bool.false_ne_true)
    obtain ⟨hwr, hfile⟩ := hidle h.wr
    have hzero : s.fflush.cnt.toNat = 0 := by rw [hcnt, Int.toNat_zero]
    have hreading : Reading mode s.fflush d := by
      refine ⟨h.flags.flushed, hwr, by rw [hfile, h.items], Int.le_of_eq hcnt.symm, ?_, ?_, fun hne => absurd hcnt hne,
        ?_⟩
      · rw [hzero, hfile, h.file hnone, Nat.add_zero]
      · rw [hzero, bytes_zero, Cursor.ahead_zero]
      · exact Nat.zero_le _
    refine Stands.input back hmode hreading fun c hc => ?_
    obtain ⟨hpos, hbyte, -⟩ := hback c hc
    exact ⟨hpos, hbyte, fun hne => absurd hcnt hne⟩
  | output hmode h => exact Stands.output hmode (fflush_writes h).2

theorem ftell_step (h : Stands mode s d u) : Agrees mode u .ftell (Op.ftell.exec serve s) (Op.ftell.direct d) := by
  have hexec (hnonneg : 0 ≤ s.cnt) (hpos : (if !s.ownbuf then (s.file.pos : ℤ) - s.cnt
      else if s.rd then s.file.pos - s.cnt else if s.wr then s.file.pos + s.ptr else s.file.pos) = d.pos) :
      Op.ftell.exec serve s = (.code d.pos, s) := by
    have hneg : ¬ s.cnt < 0 := Int.not_lt.mpr hnonneg
    change (Out.code s.ftell.1, s.ftell.2) = _
    unfold Iobuf.ftell
    simp only [if_neg hneg]
    rw [hpos]
  have hdone : Op.ftell.exec serve s = (.code d.pos, s) := by
    cases h with
    | fresh h =>
      apply hexec (Int.le_of_eq h.cnt.symm)
      rw [h.cnt, h.ptr, h.file]
      simp
    | input _ _ h _ =>
      have hnonneg := h.nonneg
      have hpos := h.pos
      apply hexec hnonneg
      by_cases hcnt : s.cnt = 0
      · rw [h.wr, h.file hcnt, hcnt]
        simp
      · obtain ⟨hown, hrd⟩ := h.owned hcnt
        rw [hrd]
        simp only [if_true]
        omega
    | output _ h =>
      have hcnt := h.cnt
      have hfits := h.fits
      have hpos : d.pos = s.file.pos + s.ptr := by
        rw [← h.written, Cursor.puts_pos, length_bytes]
      apply hexec (by split at hcnt <;> omega)
      by_cases hptr : s.ptr = 0
      · rw [hcnt, hpos, hptr]
        simp
      · obtain ⟨hown, hwr⟩ := h.owned hptr
        rw [hown, hwr, h.rd, hpos]
        simp
  rw [hdone]
  refine ⟨rfl, ?_⟩
  cases h with
  | fresh h => exact Stands.fresh h
  | input back hmode h hback => exact Stands.input back hmode h hback
  | output hmode h => exact Stands.output hmode h

/-- The stream before `fseek` moves the file. -/
def released (s : Iobuf) : Iobuf :=
  let t := { s with eof := false }.fflush
  if t.rw then { t with rd := false, wr := false } else t

theorem fresh_released (hflags : Flags mode s) : Fresh mode (released s) s.fflush.file := by
  obtain ⟨hptr, hcnt, -, hrw, -, -, -⟩ := fflush_keeps { s with eof := false }
  have hfile : ({ s with eof := false } : Iobuf).fflush.file = s.fflush.file := by
    rw [fflush_eq, fflush_eq]
    split <;> rfl
  have hflags' : Flags mode { s with eof := false } := ⟨hflags.rw, hflags.plain⟩
  unfold released
  dsimp only
  split
  · next hyes =>
    have hplus : mode.plus = true := (hrw.trans hflags.rw).symm.trans hyes
    exact ⟨⟨hrw.trans hflags.rw, fun hno => absurd (hplus.symm.trans hno) (by decide)⟩, hfile, hptr, hcnt,
      fun _ => ⟨rfl, rfl⟩⟩
  · next hno =>
    exact ⟨hflags'.flushed, hfile, hptr, hcnt, fun hplus => absurd ((hrw.trans hflags.rw).trans hplus) hno⟩

theorem fseek_fresh {offset whence o : ℤ} (hflags : Flags mode s) (hvalid : whence = 0 ∨ whence = 1 ∨ whence = 2)
    (ho : (if whence = 1 ∧ s.rd = true then int32 (offset - s.cnt) else offset) = o)
    (hitems : s.fflush.file.items = d.items)
    (htarget : Direct.target s.fflush.file o whence = Direct.target d offset whence)
    (hfail : Direct.target d offset whence < 0 → s.fflush.file = d) :
    (s.fseek offset whence).1 = (Direct.seek d offset whence).1 ∧
      Fresh mode (s.fseek offset whence).2 (Direct.seek d offset whence).2 := by
  have hfresh := fresh_released hflags
  have hknown : ¬(whence ≠ 0 ∧ whence ≠ 1 ∧ whence ≠ 2) := by omega
  have hlseek : s.fseek offset whence =
      (if ((released s).lseek o whence).1 < 0 then -1 else 0, ((released s).lseek o whence).2) := by
    unfold Iobuf.fseek released
    rw [if_neg hknown, ← ho]
  have hgoal : (released s).lseek o whence =
      if Direct.target d offset whence < 0 then (-22, released s)
      else (Direct.target d offset whence,
        { released s with file := (released s).file.goto (Direct.target d offset whence).toNat }) := by
    rw [← htarget, ← hfresh.file]
    rfl
  rw [hlseek, hgoal, Direct.seek]
  by_cases hneg : Direct.target d offset whence < 0
  · rw [if_pos hneg, if_pos (Or.inr hneg)]
    refine ⟨rfl, ?_⟩
    rw [← hfail hneg]
    exact hfresh
  · have hok : ¬(whence ≠ 0 ∧ whence ≠ 1 ∧ whence ≠ 2 ∨ Direct.target d offset whence < 0) := by
      rintro (hbad | hbad)
      · exact hknown hbad
      · exact hneg hbad
    rw [if_neg hneg, if_neg hok]
    refine ⟨if_neg hneg, ⟨hfresh.flags.rw, hfresh.flags.plain⟩, ?_, hfresh.ptr, hfresh.cnt, hfresh.neither⟩
    rw [hfresh.file]
    exact congrArg₂ Cursor.mk hitems rfl

theorem fseek_seeks {offset whence : ℤ} (h : Stands mode s d u) (hvalid : whence = 0 ∨ whence = 1 ∨ whence = 2)
    (hrange : -2 ^ 31 ≤ offset ∧ offset < 2 ^ 31) (hkeep : Keeps s d (.fseek offset whence)) :
    (s.fseek offset whence).1 = (Direct.seek d offset whence).1 ∧
      Fresh mode (s.fseek offset whence).2 (Direct.seek d offset whence).2 := by
  -- without bytes ahead the offset is as it was given
  have hsame (hcnt : s.cnt = 0) (hfile : s.fflush.file = d) :
      (s.fseek offset whence).1 = (Direct.seek d offset whence).1 ∧
        Fresh mode (s.fseek offset whence).2 (Direct.seek d offset whence).2 := by
    refine fseek_fresh h.flags hvalid ?_ (by rw [hfile]) (by rw [hfile]) fun _ => hfile
    rw [hcnt, Int.sub_zero, int32_eq hrange.1 hrange.2, ite_self]
  obtain ⟨-, -, -, -, -, -, hidle⟩ := fflush_keeps s
  cases h with
  | fresh h =>
    have hfile : s.fflush.file = d := by
      rw [fflush_eq, if_neg]
      · exact h.file
      · rintro ⟨-, -, -, hpos⟩
        exact absurd h.ptr (Nat.ne_of_gt hpos)
    exact hsame h.cnt hfile
  | input back hmode h _ =>
    have hfile : s.fflush.file = s.file := (hidle h.wr).2
    rcases hkeep with hwr | hcnt | ⟨htarget, hlow⟩
    · exact absurd (h.wr.symm.trans hwr) Bool.false_ne_true
    · exact hsame hcnt (hfile.trans (h.file hcnt))
    by_cases hcnt : s.cnt = 0
    · exact hsame hcnt (hfile.trans (h.file hcnt))
    have hrd := (h.owned hcnt).2
    have hnonneg := h.nonneg
    have hpos := h.pos
    refine fseek_fresh h.flags hvalid rfl (by rw [hfile, h.items]) ?_ fun hneg => absurd hneg (Int.not_lt.mpr htarget)
    rw [hfile]
    unfold Direct.target
    rcases hvalid with rfl | rfl | rfl
    · simp
    · have hwide : int32 (offset - s.cnt) = offset - s.cnt := int32_eq (hlow rfl) (by omega)
      simp only [hrd, and_self, if_true]
      omega
    · simp [h.items]
  | output hmode h =>
    have hfile : s.fflush.file = d := (fflush_writes h).1
    refine fseek_fresh h.flags hvalid ?_ (by rw [hfile]) (by rw [hfile]) fun _ => hfile
    rw [h.rd]
    simp

theorem fseek_step {offset whence : ℤ} (h : Stands mode s d u) (hallow : u.Allows mode (.fseek offset whence))
    (hkeep : Keeps s d (.fseek offset whence)) :
    Agrees mode u (.fseek offset whence) ((Op.fseek offset whence).exec serve s)
      ((Op.fseek offset whence).direct d) := by
  have hexec : (Op.fseek offset whence).exec serve s =
      (.code (s.fseek offset whence).1, (s.fseek offset whence).2) := rfl
  have hdirect : (Op.fseek offset whence).direct d =
      (.code (Direct.seek d offset whence).1, (Direct.seek d offset whence).2) := rfl
  by_cases hvalid : whence = 0 ∨ whence = 1 ∨ whence = 2
  · obtain ⟨hcode, hfresh⟩ := fseek_seeks h hvalid hallow.2 hkeep
    have hafter (out : Out) : u.after (.fseek offset whence) out = Usage.new := if_pos hvalid
    rw [hexec, hcode]
    refine ⟨rfl, ?_⟩
    rw [hafter]
    exact Stands.fresh hfresh
  · have hunknown : whence ≠ 0 ∧ whence ≠ 1 ∧ whence ≠ 2 := by omega
    have hafter (out : Out) : u.after (.fseek offset whence) out = u := if_neg hvalid
    have hs : s.fseek offset whence = (-1, s) := if_pos hunknown
    have hd : Direct.seek d offset whence = (-1, d) := if_pos (Or.inl hunknown)
    rw [hexec, hdirect, hs, hd]
    refine ⟨rfl, ?_⟩
    rw [hafter]
    exact h

theorem rewind_step (h : Stands mode s d u) : Agrees mode u .rewind (Op.rewind.exec serve s) (Op.rewind.direct d) := by
  have hzero : Direct.target d 0 0 = 0 := rfl
  have hkeep : Keeps s d (.fseek 0 0) := Or.inr (Or.inr ⟨Int.le_of_eq hzero.symm, fun hno => absurd hno (by decide)⟩)
  obtain ⟨-, hfresh⟩ := fseek_seeks h (Or.inl rfl) (by decide) hkeep
  exact ⟨rfl, Stands.fresh ⟨⟨hfresh.flags.rw, hfresh.flags.plain⟩, hfresh.file, hfresh.ptr, hfresh.cnt, hfresh.neither⟩⟩

theorem exec_step (h : Stands mode s d u) (hallow : u.Allows mode op) (hkeep : Keeps s d op) :
    Agrees mode u op (op.exec serve s) (op.direct d) := by
  cases op with
  | fread size num => exact fread_step serve h hallow
  | fgets n => exact fgets_step serve h hallow
  | getc => exact getc_step serve h hallow
  | ungetc c => exact ungetc_step serve h hallow
  | fwrite data size num => exact fwrite_step serve h hallow
  | fputs string => exact fputs_step serve h hallow
  | putc c => exact putc_step serve h hallow
  | fflush => exact fflush_step serve h hkeep
  | fseek offset whence => exact fseek_step serve h hallow hkeep
  | ftell => exact ftell_step serve h
  | rewind => exact rewind_step serve h

/-! Runs. -/

def runStream : Iobuf → List Op → List Out × Iobuf
  | s, [] => ([], s)
  | s, op :: ops =>
    let r := op.exec serve s
    (r.1 :: (runStream r.2 ops).1, (runStream r.2 ops).2)

def runDirect : Cursor Byte → List Op → List Out × Cursor Byte
  | d, [] => ([], d)
  | d, op :: ops =>
    let r := op.direct d
    (r.1 :: (runDirect r.2 ops).1, (runDirect r.2 ops).2)

/-- The program keeps to the rules of the interface. -/
def Allowed (mode : Mode) : Cursor Byte → Usage → List Op → Prop
  | _, _, [] => True
  | d, u, op :: ops => u.Allows mode op ∧ Allowed mode (op.direct d).2 (u.after op (op.direct d).1) ops

/-- No operation drops bytes that were read ahead. -/
def Kept : Iobuf → Cursor Byte → List Op → Prop
  | _, _, [] => True
  | s, d, op :: ops => Keeps s d op ∧ Kept (op.exec serve s).2 (op.direct d).2 ops

/-- The file that `fopen` opens. -/
def opened (mode : Mode) (items : List Byte) : Cursor Byte := ⟨if mode.write then [] else items, 0⟩

/-- What is delivered and reported is what the file without a buffer delivers and reports, and so are the bytes of the
file once it is flushed or closed. -/
structure Equivalent (mode : Mode) (items : List Byte) (ops : List Op) : Prop where
  outs : (runStream serve (fopen mode items) ops).1 = (runDirect (opened mode items) ops).1
  flushed : (runStream serve (fopen mode items) ops).2.fflush.file.items = (runDirect (opened mode items) ops).2.items
  closed : (fclose (runStream serve (fopen mode items) ops).2).items = (runDirect (opened mode items) ops).2.items

theorem Stands.flushed (h : Stands mode s d u) : s.fflush.file.items = d.items := by
  obtain ⟨-, -, -, -, -, -, hidle⟩ := fflush_keeps s
  cases h with
  | fresh h =>
    rw [fflush_eq, if_neg, h.file]
    rintro ⟨-, -, -, hpos⟩
    exact absurd h.ptr (Nat.ne_of_gt hpos)
  | input _ _ h _ => rw [(hidle h.wr).2, h.items]
  | output _ h => rw [(fflush_writes h).1]

theorem run_stands {ops : List Op} (h : Stands mode s d u) (hallow : Allowed mode d u ops)
    (hkeep : Kept serve s d ops) :
    (runStream serve s ops).1 = (runDirect d ops).1 ∧
      ∃ u', Stands mode (runStream serve s ops).2 (runDirect d ops).2 u' := by
  induction ops generalizing s d u with
  | nil => exact ⟨rfl, u, h⟩
  | cons op ops ih =>
    obtain ⟨hout, hstands⟩ := exec_step serve h hallow.1 hkeep.1
    obtain ⟨houts, hrest⟩ := ih hstands hallow.2 hkeep.2
    exact ⟨congrArg₂ List.cons hout houts, hrest⟩

instance : Decidable (u.Allows mode op) := by
  unfold Usage.Allows
  cases op <;> infer_instance

instance : Decidable (Keeps s d op) := by
  unfold Keeps
  cases op <;> infer_instance

def decideAllowed (mode : Mode) : (d : Cursor Byte) → (u : Usage) → (ops : List Op) → Decidable (Allowed mode d u ops)
  | _, _, [] => .isTrue trivial
  | d, u, op :: ops =>
    let _ := decideAllowed mode (op.direct d).2 (u.after op (op.direct d).1) ops
    inferInstanceAs (Decidable (u.Allows mode op ∧ Allowed mode (op.direct d).2 (u.after op (op.direct d).1) ops))

instance (ops : List Op) : Decidable (Allowed mode d u ops) := decideAllowed mode d u ops

def decideKept : (s : Iobuf) → (d : Cursor Byte) → (ops : List Op) → Decidable (Kept serve s d ops)
  | _, _, [] => .isTrue trivial
  | s, d, op :: ops =>
    let _ := decideKept (op.exec serve s).2 (op.direct d).2 ops
    inferInstanceAs (Decidable (Keeps s d op ∧ Kept serve (op.exec serve s).2 (op.direct d).2 ops))

instance (ops : List Op) : Decidable (Kept serve s d ops) := decideKept serve s d ops

/-- A file is written, read back with a byte pushed back, and extended. -/
def editing : List Op :=
  [.fputs [65, 66, 10], .putc 67, .rewind, .fgets 10, .getc, .ungetc 67, .ftell, .fread 1 5, .fseek (-2) 2,
    .fwrite [68, 69, 70] 3 1, .fflush, .ftell]

end SimpleKernel.Stdio

import SimpleKernel.Stdio.Reading

/-! Writing: the bytes of the buffer are still to be put into the file. -/
namespace SimpleKernel.Stdio
open Iobuf

/-- The stream `s`, in the midst of writing, stands for the file `d`. -/
structure Writing (mode : Mode) (s : Iobuf) (d : Cursor Byte) : Prop where
  flags : Flags mode s
  rd : s.rd = false
  written : s.file.puts 0 (s.bytes 0 s.ptr) = d
  cnt : s.cnt = if s.ptr = 0 then 0 else (bufsiz : ℤ) - s.ptr
  fits : s.ptr ≤ bufsiz
  owned : s.ptr ≠ 0 → s.ownbuf = true ∧ s.wr = true

variable {mode : Mode} {s : Iobuf} {d : Cursor Byte} {c : Byte} {data : List Byte}

theorem Writing.file (h : Writing mode s d) (hptr : s.ptr = 0) : s.file = d := by
  have hwritten := h.written
  rwa [hptr] at hwritten

theorem Writing.empty (hflags : Flags mode s) (hrd : s.rd = false) (hfile : s.file = d) (hptr : s.ptr = 0)
    (hcnt : s.cnt = 0) : Writing mode s d := by
  refine ⟨hflags, hrd, ?_, ?_, by omega, fun hne => absurd hptr hne⟩
  · rw [hptr, bytes_zero, Cursor.puts_nil, hfile]
  · rw [if_pos hptr, hcnt]

theorem fflush_eq (s : Iobuf) :
    s.fflush = if s.rd = false ∧ s.wr = true ∧ s.ownbuf = true ∧ 0 < s.ptr then
        { s with file := s.file.puts 0 (s.bytes 0 s.ptr), wr := !s.rw, ptr := 0, cnt := 0 }
      else { s with ptr := 0, cnt := 0 } := by
  unfold Iobuf.fflush write
  by_cases hcond : s.rd = false ∧ s.wr = true ∧ s.ownbuf = true ∧ 0 < s.ptr
  · obtain ⟨hrd, hwr, hown, hptr⟩ := hcond
    have hdec : (!s.rd && s.wr && s.ownbuf && decide (0 < s.ptr)) = true := by simp [hrd, hwr, hown, hptr]
    have hcond : s.rd = false ∧ s.wr = true ∧ s.ownbuf = true ∧ 0 < s.ptr := ⟨hrd, hwr, hown, hptr⟩
    rw [if_pos hdec]
    dsimp only
    split
    · next hrw => rw [hrw, Bool.not_true]
    · next hrw => rw [(Bool.eq_false_iff.mpr hrw), hwr, Bool.not_false]
  · have hdec : ¬(!s.rd && s.wr && s.ownbuf && decide (0 < s.ptr)) = true := by
      intro hyes
      simp only [Bool.and_eq_true, Bool.not_eq_true', decide_eq_true_eq] at hyes
      exact hcond ⟨hyes.1.1.1, hyes.1.1.2, hyes.1.2, hyes.2⟩
    rw [if_neg hdec, if_neg hcond]

theorem fflush_keeps (s : Iobuf) :
    s.fflush.ptr = 0 ∧ s.fflush.cnt = 0 ∧ s.fflush.rd = s.rd ∧ s.fflush.rw = s.rw ∧ s.fflush.ownbuf = s.ownbuf ∧
      (s.rw = false → s.fflush.wr = s.wr) ∧ (s.wr = false → s.fflush.wr = false ∧ s.fflush.file = s.file) := by
  rw [fflush_eq]
  split
  · next hcond =>
    refine ⟨rfl, rfl, rfl, rfl, rfl, fun hrw => ?_, fun hwr => ?_⟩
    · rw [hrw, hcond.2.1]
      rfl
    · exact absurd (hwr.symm.trans hcond.2.1) Bool.false_ne_true
  · exact ⟨rfl, rfl, rfl, rfl, rfl, fun _ => rfl, fun hwr => ⟨hwr, rfl⟩⟩

theorem Flags.flushed (h : Flags mode s) : Flags mode s.fflush := by
  obtain ⟨-, -, hrd, hrw, -, hwr, -⟩ := fflush_keeps s
  refine ⟨hrw.trans h.rw, fun hplus => ?_⟩
  obtain ⟨hrds, hwrs⟩ := h.plain hplus
  exact ⟨hrd.trans hrds, (hwr (h.rw.trans hplus)).trans hwrs⟩

theorem fflush_writes (h : Writing mode s d) : s.fflush.file = d ∧ Writing mode s.fflush d := by
  obtain ⟨hptr, hcnt, hrd, -, -, -, -⟩ := fflush_keeps s
  have hfile : s.fflush.file = d := by
    rw [fflush_eq]
    split
    · exact h.written
    · next hcond =>
      refine h.file ?_
      by_contra hne
      obtain ⟨hown, hwr⟩ := h.owned hne
      exact hcond ⟨h.rd, hwr, hown, Nat.pos_of_ne_zero hne⟩
  exact ⟨hfile, Writing.empty h.flags.flushed (hrd.trans h.rd) hfile hptr hcnt⟩

/-- The mode of a stream that may write. -/
def MayWrite (mode : Mode) : Prop := mode.plus = true ∨ mode.write = true

theorem Flags.writes (h : Flags mode s) (hmode : MayWrite mode) {t : Iobuf} (hrw : t.rw = s.rw) (hrd : t.rd = false)
    (hwr : t.wr = true) : Flags mode t := by
  refine ⟨hrw.trans h.rw, fun hplus => ?_⟩
  have hwrite : mode.write = true := hmode.resolve_left (by rw [hplus]; exact Bool.false_ne_true)
  rw [hrd, hwr, hwrite]
  exact ⟨rfl, rfl⟩

/-- The state of `flsbuf` once the buffer has been written to the file. -/
def drained (s : Iobuf) : Iobuf :=
  { s with file := s.file.puts 0 (s.bytes 0 s.ptr), wr := true, eof := false, ownbuf := true }

section
variable (h : Writing mode s d)
include h

theorem flsbuf_writes (hmode : MayWrite mode) (k : ℤ) (c : Byte) :
    ({ s with cnt := k }.flsbuf c).1 = some c ∧ Writing mode ({ s with cnt := k }.flsbuf c).2 (d.put 0 c) := by
  have hopen : (!s.wr && !s.rw) = false := by
    rcases hmode with hplus | hwrite
    · rw [h.flags.rw, hplus]
      simp
    · cases hplus : mode.plus with
      | true =>
        rw [h.flags.rw, hplus]
        simp
      | false =>
        rw [(h.flags.plain hplus).2, hwrite]
        rfl
  have hptr : s.ownbuf = false → s.ptr = 0 := by
    intro hno
    by_contra hne
    exact absurd (hno.symm.trans (h.owned hne).1) Bool.false_ne_true
  have heq : { s with cnt := k }.flsbuf c =
      (some c, { (drained s).fill 0 [c] with ptr := 1, cnt := bufsiz - 1 }) := by
    unfold Iobuf.flsbuf drained write getbuf fill
    simp only [hopen, h.rd, Bool.false_and, Bool.false_eq_true, if_false]
    cases hown : s.ownbuf with
    | true =>
      simp only [if_true]
      by_cases hpos : 0 < s.ptr
      · simp only [if_pos hpos]
        rfl
      · simp only [Nat.eq_zero_of_not_pos hpos, Nat.lt_irrefl, if_false, bytes_zero, Cursor.puts_nil]
    | false => simp [hptr hown]
  rw [heq]
  refine ⟨rfl, h.flags.writes hmode rfl h.rd rfl, h.rd, ?_, rfl, Nat.le_add_left 1 511, fun _ => ⟨rfl, rfl⟩⟩
  · change ((s.file.puts 0 (s.bytes 0 s.ptr)).puts 0 (((drained s).fill 0 [c]).bytes 0 1)) = _
    rw [h.written]
    rfl

theorem Writing.store {k : ℕ} (hk : (data.length : ℤ) ≤ s.cnt) (hpos : data ≠ [])
    (hlen : data.length = k) :
    Writing mode { s.fill s.ptr data with cnt := s.cnt - k, ptr := s.ptr + k } (d.puts 0 data) := by
  have hlt : 0 < data.length := List.length_pos_of_ne_nil hpos
  have hcnt := h.cnt
  have hne : s.ptr ≠ 0 := by
    omega
  rw [if_neg hne] at hcnt
  refine ⟨⟨h.flags.rw, h.flags.plain⟩, h.rd, ?_, ?_, ?_, fun _ => h.owned hne⟩
  · change s.file.puts 0 ((s.fill s.ptr data).bytes 0 (s.ptr + k)) = _
    rw [bytes_add, Nat.zero_add, ← hlen, bytes_fill_self, bytes_fill_of_le (Nat.le_of_eq (Nat.zero_add _)),
      Cursor.puts_append, h.written]
  · dsimp only
    omega
  · dsimp only
    omega

theorem putc_writes (hmode : MayWrite mode) (c : Byte) :
    (s.putc c).1 = some c ∧ Writing mode (s.putc c).2 (d.put 0 c) := by
  unfold Iobuf.putc
  by_cases hroom : 0 ≤ s.cnt - 1
  · have hone : (([c] : List Byte).length : ℤ) ≤ s.cnt := by
      rw [List.length_singleton]
      omega
    simp only [if_pos hroom]
    exact ⟨trivial, h.store hone (List.cons_ne_nil c []) rfl⟩
  · simp only [if_neg hroom]
    exact flsbuf_writes h hmode _ c

theorem fwriteTurn_writes (hmode : MayWrite mode) (hdata : data ≠ []) :
    0 < (s.fwriteTurn data).1 ∧ (s.fwriteTurn data).1 ≤ data.length ∧
      Writing mode (s.fwriteTurn data).2 (d.puts 0 (data.take (s.fwriteTurn data).1)) := by
  have hlt : 0 < data.length := List.length_pos_of_ne_nil hdata
  have hsize : bufsiz = 512 := rfl
  unfold Iobuf.fwriteTurn
  by_cases hbuf : s.ownbuf = true ∧ s.cnt ≠ 0
  · have hcnt := h.cnt
    have hfits := h.fits
    have hbounds : 0 < s.cnt ∧ s.cnt < 2 ^ 32 := by
      split at hcnt <;> omega
    have hroom : s.room data.length = min data.length s.cnt.toNat := by
      rw [room, Int.emod_eq_of_lt (by omega) hbounds.2]
    have hlen : (data.take (s.room data.length)).length = s.room data.length := by
      rw [List.length_take]
      omega
    have hne : data.take (s.room data.length) ≠ [] := by
      apply List.ne_nil_of_length_pos
      omega
    rw [if_pos hbuf]
    exact ⟨by dsimp only; omega, by dsimp only; omega, h.store (by omega) hne hlen⟩
  rw [if_neg hbuf]
  by_cases hbig : bufsiz ≤ data.length
  · have hmod := Nat.mod_lt data.length (by decide : 0 < bufsiz)
    rw [if_pos hbig]
    refine ⟨by dsimp only; omega, Nat.sub_le _ _, ?_⟩
    obtain ⟨t, ht, hempty, hptr, hcnt⟩ : ∃ t, (if s.ownbuf then s.fflush else s) = t ∧ Writing mode t d ∧
        t.ptr = 0 ∧ t.cnt = 0 := by
      refine ⟨_, rfl, ?_⟩
      split
      · obtain ⟨hptr, hcnt, -⟩ := fflush_keeps s
        exact ⟨(fflush_writes h).2, hptr, hcnt⟩
      · next hown =>
        have hptr : s.ptr = 0 := by
          by_contra hne
          exact hown (h.owned hne).1
        have hcnt := h.cnt
        rw [if_pos hptr] at hcnt
        exact ⟨h, hptr, hcnt⟩
    rw [ht]
    refine Writing.empty ⟨hempty.flags.rw, hempty.flags.plain⟩ hempty.rd ?_ hptr hcnt
    change t.file.puts 0 _ = _
    rw [hempty.file hptr]
  · rw [if_neg hbig]
    cases data with
    | nil => exact absurd rfl hdata
    | cons c rest =>
      obtain ⟨hdone, hwriting⟩ := flsbuf_writes h hmode s.cnt c
      have hsome : (s.flsbuf c).1 ≠ none := by
        rw [hdone]
        exact Option.some_ne_none c
      simp only [if_neg hsome]
      exact ⟨Nat.one_pos, Nat.succ_pos _, hwriting⟩

theorem fwriteLoop_writes (hmode : MayWrite mode) {turns : ℕ} (hturns : data.length ≤ turns) :
    (fwriteLoop turns s data).1 = data.length ∧ Writing mode (fwriteLoop turns s data).2 (d.puts 0 data) := by
  induction turns generalizing s d data with
  | zero =>
    obtain rfl := List.length_eq_zero_iff.mp (Nat.le_zero.mp hturns)
    exact ⟨rfl, h⟩
  | succ turns ih =>
    unfold fwriteLoop
    by_cases hnil : data = []
    · rw [hnil]
      exact ⟨rfl, h⟩
    rw [if_neg hnil]
    obtain ⟨hpos, hle, hwriting⟩ := fwriteTurn_writes h hmode hnil
    have hne : (s.fwriteTurn data).1 ≠ 0 := Nat.ne_of_gt hpos
    have hleft : (data.drop (s.fwriteTurn data).1).length ≤ turns := by
      rw [List.length_drop]
      omega
    obtain ⟨hcount, hrest⟩ := ih hwriting hleft
    simp only [if_neg hne]
    rw [← Cursor.puts_append, List.take_append_drop] at hrest
    refine ⟨?_, hrest⟩
    rw [hcount, List.length_drop]
    omega

theorem fwrite_writes (hmode : MayWrite mode) {size num : ℕ} (hlen : data.length = size * num)
    (hlt : size * num < 2 ^ 31) :
    (s.fwrite data size num).1 = data.length / size ∧ Writing mode (s.fwrite data size num).2 (d.puts 0 data) := by
  have htotal : size * num % 2 ^ 32 = size * num := Nat.mod_eq_of_lt (by omega)
  unfold Iobuf.fwrite
  rw [htotal, ← hlen]
  dsimp only
  rw [List.take_length]
  by_cases hzero : data.length = 0
  · obtain rfl := List.length_eq_zero_iff.mp hzero
    rw [List.length_nil, Nat.zero_div]
    exact ⟨rfl, h⟩
  obtain ⟨hcount, hwriting⟩ := fwriteLoop_writes h hmode (Nat.le_refl data.length)
  have hsize : 0 < size := by
    by_contra hno
    rw [Nat.eq_zero_of_not_pos hno, Nat.zero_mul] at hlen
    exact hzero hlen
  rw [if_neg hzero]
  refine ⟨?_, hwriting⟩
  rw [if_pos hcount, hlen, Nat.mul_div_cancel_left num hsize]

theorem fputs_writes (hmode : MayWrite mode) (hlt : data.length < 2 ^ 31) :
    (s.fputs data).1 = 0 ∧ Writing mode (s.fputs data).2 (d.puts 0 data) := by
  have hone : data.length = 1 * data.length := (Nat.one_mul _).symm
  obtain ⟨hcount, hwriting⟩ := fwrite_writes h hmode hone (by rwa [← hone])
  rw [Nat.div_one] at hcount
  exact ⟨if_pos hcount, hwriting⟩

end

end SimpleKernel.Stdio

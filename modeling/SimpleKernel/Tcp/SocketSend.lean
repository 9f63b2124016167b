import SimpleKernel.Lib.Int32
import Mathlib.Algebra.BigOperators.Group.List.Basic
import Mathlib.Data.Nat.Find

/-! How a TCP socket sends (`net/tcpsock.c`): `fill_sndbuf`, the request of a sender, and `sent_tcp`. -/
namespace SimpleKernel.Tcp

/-- One run of `fill_sndbuf`: the room in the send buffer of the PCB (an unsigned short), and what each call of
`tcp_write` returns. A write that fails queues nothing. -/
structure Fill where
  left : ℕ
  rc : ℕ → ℤ
  left_lt : left < 2 ^ 16

/-- What the loop over several buffers did: the error that ended it, the buffers, the bytes that were queued, the
count of them and the number of writes. -/
structure Filled where
  err : Option ℤ
  iov : List (List UInt8)
  queued : List UInt8
  bytes : ℤ
  calls : ℕ

/-- The loop of `fill_sndbuf`. -/
def fillLoop (rc : ℕ → ℤ) : List (List UInt8) → ℕ → ℕ → Filled
  | [], _, n => ⟨none, [], [], 0, n⟩
  | b :: iov, left, n =>
    if left = 0 then ⟨none, b :: iov, [], 0, n⟩
    else if b = [] then
      let r := fillLoop rc iov left n
      { r with iov := b :: r.iov }
    else
      let len := min b.length left
      if rc n < 0 then ⟨some (rc n), b :: iov, [], 0, n + 1⟩
      else
        let r := fillLoop rc iov (left - len) (n + 1)
        { r with iov := b.drop len :: r.iov, queued := b.take len ++ r.queued, bytes := len + r.bytes }

/-- `fill_sndbuf`: its result, the buffers and the bytes that were queued. -/
def fillSndbuf (f : Fill) : List (List UInt8) → ℤ × List (List UInt8) × List UInt8
  | [b] =>
    if b = [] then (0, [b], [])
    else
      let len := min b.length f.left
      if f.rc 0 < 0 then (f.rc 0, [b], []) else (len, [b.drop len], b.take len)
  | iov =>
    let r := fillLoop f.rc iov f.left 0
    match r.err with
    | some rc => (rc, r.iov, r.queued)
    | none => if f.rc r.calls < 0 then (f.rc r.calls, r.iov, r.queued) else (r.bytes, r.iov, r.queued)

/-- `get_iovec_size`. -/
def iovecSize (iov : List (List UInt8)) : ℕ := iov.flatten.length % 2 ^ 32

/-- A sender: its buffers (each shorter than half the address space, so that its length is an `int`), what the first run
returned and what the later ones added up to, the bytes that were queued for it, and what it was told. -/
structure Request where
  iov : List (List UInt8)
  bytes : ℤ
  rc : ℤ
  queued : List UInt8
  reported : Option ℤ

/-- `tcpsock_sendmsg` up to its wait, of a socket that is non-blocking or not. -/
def sendmsg (nbio : Bool) (iov : List (List UInt8)) (f : Fill) : Request :=
  let size := int32 (iovecSize iov)
  if size = 0 then ⟨iov, 0, 0, [], some 0⟩
  else
    let r := fillSndbuf f iov
    if r.1 < 0 then ⟨r.2.1, 0, 0, r.2.2, some r.1⟩
    else ⟨r.2.1, r.1, 0, r.2.2, if r.1 < size ∧ nbio = false then none else some r.1⟩

/-- What `sent_tcp` does for a request that waits, and what the sender then gets. -/
def Request.sentTcp (r : Request) (f : Fill) : Request :=
  match r.reported with
  | some _ => r
  | none =>
    if f.left = 0 then r
    else
      let x := fillSndbuf f r.iov
      if x.1 < 0 then { r with iov := x.2.1, queued := r.queued ++ x.2.2, reported := some x.1 }
      else
        let rc := int32 (r.rc + x.1)
        { r with
          iov := x.2.1
          rc := rc
          queued := r.queued ++ x.2.2
          reported := if iovecSize x.2.1 = 0 then some (if rc < 0 then rc else int32 (r.bytes + rc)) else none }

/-- The whole request: the run of the sender and then those of `sent_tcp`. -/
def request (nbio : Bool) (iov : List (List UInt8)) (f : Fill) (later : List Fill) : Request :=
  later.foldl Request.sentTcp (sendmsg nbio iov f)

/-- What the sender is told is the number of bytes that were queued for it, or an error when there are none. -/
def Request.Accounted (r : Request) : Prop :=
  ∀ v, r.reported = some v → v = r.queued.length ∨ (v < 0 ∧ r.queued = [])

/-- The lengths that the loop of `fill_sndbuf` writes, as long as no write fails. -/
def pieces : ℕ → List (List UInt8) → List ℕ
  | _, [] => []
  | left, b :: iov =>
    if left = 0 then []
    else if b = [] then pieces left iov
    else min b.length left :: pieces (left - min b.length left) iov

/-- What is left of the buffers then. -/
def unsentOf : ℕ → List (List UInt8) → List (List UInt8)
  | _, [] => []
  | left, b :: iov =>
    if left = 0 then b :: iov
    else if b = [] then b :: unsentOf left iov
    else b.drop (min b.length left) :: unsentOf (left - min b.length left) iov

/-- The lengths of all writes of `fill_sndbuf`. After the loop there is one of no bytes. -/
def writes (left : ℕ) : List (List UInt8) → List ℕ
  | [b] => if b = [] then [] else [min b.length left]
  | iov => pieces left iov ++ [0]

def afterFill (left : ℕ) : List (List UInt8) → List (List UInt8)
  | [b] => [b.drop (min b.length left)]
  | iov => unsentOf left iov

/-- No write fails. -/
def Fill.Succeeds (f : Fill) (iov : List (List UInt8)) : Prop := ∀ i < (writes f.left iov).length, 0 ≤ f.rc i

/-- The first write that fails comes before any byte was queued, also by earlier runs, which queued `sent`. -/
def Fill.Clean (f : Fill) (sent : ℕ) (iov : List (List UInt8)) : Prop :=
  ∀ i < (writes f.left iov).length, f.rc i < 0 → (∀ j < i, 0 ≤ f.rc j) → sent + ((writes f.left iov).take i).sum = 0

/-- The request waits after the first run, of `bytes` bytes. -/
def KeepsWaiting (nbio : Bool) (iov : List (List UInt8)) (bytes : ℕ) : Prop :=
  nbio = false ∧ (bytes : ℤ) < int32 (iovecSize iov)

/-- The runs for a request that waits with `sent` bytes queued and `iov` to go: no write fails after bytes of it were
queued, and their number is an `int` when the last are. -/
def Unbroken : ℕ → List (List UInt8) → List Fill → Prop
  | _, _, [] => True
  | sent, iov, f :: fs =>
    if f.left = 0 then Unbroken sent iov fs
    else
      f.Clean sent iov ∧ (f.Succeeds iov →
        if iovecSize (afterFill f.left iov) = 0 then sent + (writes f.left iov).sum < 2 ^ 31
        else Unbroken (sent + (writes f.left iov).sum) (afterFill f.left iov) fs)

theorem fillLoop_succeeds {rc : ℕ → ℤ} {iov : List (List UInt8)} {left n : ℕ}
    (h : ∀ i < (pieces left iov).length, 0 ≤ rc (n + i)) :
    (fillLoop rc iov left n).err = none ∧ (fillLoop rc iov left n).iov = unsentOf left iov ∧
      (fillLoop rc iov left n).bytes = (pieces left iov).sum ∧
      (fillLoop rc iov left n).queued.length = (pieces left iov).sum ∧
      (fillLoop rc iov left n).calls = n + (pieces left iov).length := by
  induction iov generalizing left n with
  | nil => exact ⟨rfl, rfl, rfl, rfl, rfl⟩
  | cons b iov ih =>
    rw [fillLoop, pieces, unsentOf]
    rw [pieces] at h
    split
    · exact ⟨rfl, rfl, rfl, rfl, rfl⟩
    · rename_i hleft
      rw [if_neg hleft] at h
      split
      · rename_i hb
        rw [if_pos hb] at h
        obtain ⟨herr, hiov, hbytes, hqueued, hcalls⟩ := ih h
        dsimp only
        exact ⟨herr, by rw [hiov], hbytes, hqueued, hcalls⟩
      · rename_i hb
        rw [if_neg hb] at h
        have hfirst : ¬ rc n < 0 := by
          have hpos := h 0 (by simp)
          rw [Nat.add_zero] at hpos
          omega
        obtain ⟨herr, hiov, hbytes, hqueued, hcalls⟩ :=
          @ih (left - min b.length left) (n + 1) fun i hi => by
            have hpos := h (i + 1) (by simpa using hi)
            rwa [← Nat.add_assoc, Nat.add_right_comm] at hpos
        dsimp only
        rw [if_neg hfirst]
        refine ⟨herr, by rw [hiov], ?_, ?_, ?_⟩
        · simp only [List.sum_cons]
          omega
        · simp only [List.length_append, List.length_take, List.sum_cons]
          omega
        · simp only [List.length_cons]
          omega

theorem fillLoop_fails {rc : ℕ → ℤ} {iov : List (List UInt8)} {left n i : ℕ} (hi : i < (pieces left iov).length)
    (hneg : rc (n + i) < 0) (hbefore : ∀ j < i, 0 ≤ rc (n + j)) :
    (fillLoop rc iov left n).err = some (rc (n + i)) ∧
      (fillLoop rc iov left n).queued.length = ((pieces left iov).take i).sum := by
  induction iov generalizing left n i with
  | nil => exact absurd hi (Nat.not_lt_zero i)
  | cons b iov ih =>
    rw [fillLoop, pieces]
    rw [pieces] at hi
    split
    · rename_i hleft
      rw [if_pos hleft] at hi
      exact absurd hi (Nat.not_lt_zero i)
    · rename_i hleft
      rw [if_neg hleft] at hi
      split
      · rename_i hb
        rw [if_pos hb] at hi
        exact ih hi hneg hbefore
      · rename_i hb
        rw [if_neg hb] at hi
        cases i with
        | zero =>
          rw [Nat.add_zero] at hneg
          rw [if_pos hneg]
          exact ⟨rfl, rfl⟩
        | succ i =>
          have hfirst : ¬ rc n < 0 := by
            have hpos := hbefore 0 (Nat.succ_pos i)
            rw [Nat.add_zero] at hpos
            omega
          have hnext : n + (i + 1) = n + 1 + i := by omega
          rw [hnext] at hneg ⊢
          obtain ⟨herr, hqueued⟩ := @ih (left - min b.length left) (n + 1) i (by simpa using hi) hneg
            fun j hj => by
              have hpos := hbefore (j + 1) (by omega)
              rwa [← Nat.add_assoc, Nat.add_right_comm] at hpos
          rw [if_neg hfirst]
          refine ⟨herr, ?_⟩
          simp only [List.length_append, List.length_take, List.take_succ_cons, List.sum_cons]
          omega

theorem fillSndbuf_many {f : Fill} {iov : List (List UInt8)} (h : ∀ b, iov ≠ [b]) :
    fillSndbuf f iov =
      match (fillLoop f.rc iov f.left 0).err with
      | some rc => (rc, (fillLoop f.rc iov f.left 0).iov, (fillLoop f.rc iov f.left 0).queued)
      | none =>
        if f.rc (fillLoop f.rc iov f.left 0).calls < 0 then
          (f.rc (fillLoop f.rc iov f.left 0).calls, (fillLoop f.rc iov f.left 0).iov,
            (fillLoop f.rc iov f.left 0).queued)
        else
          ((fillLoop f.rc iov f.left 0).bytes, (fillLoop f.rc iov f.left 0).iov,
            (fillLoop f.rc iov f.left 0).queued) := by
  match iov with
  | [] => rfl
  | [b] => exact absurd rfl (h b)
  | _ :: _ :: _ => rfl

theorem writes_many (left : ℕ) {iov : List (List UInt8)} (h : ∀ b, iov ≠ [b]) :
    writes left iov = pieces left iov ++ [0] ∧ afterFill left iov = unsentOf left iov := by
  match iov with
  | [] => exact ⟨rfl, rfl⟩
  | [b] => exact absurd rfl (h b)
  | _ :: _ :: _ => exact ⟨rfl, rfl⟩

theorem fillSndbuf_succeeds {f : Fill} {iov : List (List UInt8)} (h : f.Succeeds iov) :
    (fillSndbuf f iov).1 = (writes f.left iov).sum ∧ (fillSndbuf f iov).2.1 = afterFill f.left iov ∧
      (fillSndbuf f iov).2.2.length = (writes f.left iov).sum := by
  unfold Fill.Succeeds at h
  by_cases hone : ∃ b, iov = [b]
  · obtain ⟨b, rfl⟩ := hone
    rw [fillSndbuf, writes, afterFill]
    rw [writes] at h
    split
    · rename_i hb
      subst hb
      exact ⟨rfl, by simp, rfl⟩
    · rename_i hb
      rw [if_neg hb] at h
      have hrc : ¬ f.rc 0 < 0 := by
        have hpos := h 0 (by simp)
        omega
      rw [if_neg hrc]
      simp
  · push Not at hone
    obtain ⟨hw, hafter⟩ := writes_many f.left hone
    rw [fillSndbuf_many hone, hafter, hw]
    rw [hw] at h
    obtain ⟨herr, hiov, hbytes, hqueued, hcalls⟩ :=
      @fillLoop_succeeds f.rc iov f.left 0 fun i hi => by
        rw [Nat.zero_add]
        exact h i (by simp only [List.length_append]; omega)
    have hlast : ¬ f.rc (fillLoop f.rc iov f.left 0).calls < 0 := by
      have hpos := h (pieces f.left iov).length (by simp)
      rw [hcalls, Nat.zero_add]
      omega
    simp only [herr]
    rw [if_neg hlast]
    exact ⟨by simp [hbytes], hiov, by simp [hqueued]⟩

theorem fillSndbuf_fails {f : Fill} {iov : List (List UInt8)} {i : ℕ} (hi : i < (writes f.left iov).length)
    (hneg : f.rc i < 0) (hbefore : ∀ j < i, 0 ≤ f.rc j) :
    (fillSndbuf f iov).1 = f.rc i ∧ (fillSndbuf f iov).2.2.length = ((writes f.left iov).take i).sum := by
  by_cases hone : ∃ b, iov = [b]
  · obtain ⟨b, rfl⟩ := hone
    rw [fillSndbuf]
    rw [writes] at hi
    split
    · rename_i hb
      rw [if_pos hb] at hi
      exact absurd hi (Nat.not_lt_zero i)
    · rename_i hb
      rw [if_neg hb, List.length_singleton, Nat.lt_one_iff] at hi
      subst hi
      rw [if_pos hneg]
      exact ⟨rfl, rfl⟩
  · push Not at hone
    have hw := (writes_many f.left hone).1
    rw [fillSndbuf_many hone, hw]
    rw [hw, List.length_append, List.length_singleton] at hi
    by_cases hloop : i < (pieces f.left iov).length
    · obtain ⟨herr, hqueued⟩ := @fillLoop_fails f.rc iov f.left 0 i hloop (by rwa [Nat.zero_add])
        fun j hj => by rw [Nat.zero_add]; exact hbefore j hj
      rw [Nat.zero_add] at herr
      simp only [herr]
      exact ⟨trivial, by rw [hqueued, List.take_append_of_le_length (by omega)]⟩
    · -- the write that ends the run fails, after all of the loop
      have hend : i = (pieces f.left iov).length := by omega
      obtain ⟨herr, -, -, hqueued, hcalls⟩ :=
        @fillLoop_succeeds f.rc iov f.left 0 fun j hj => by
          rw [Nat.zero_add]
          exact hbefore j (by omega)
      have hlast : f.rc (fillLoop f.rc iov f.left 0).calls < 0 := by rwa [hcalls, Nat.zero_add, ← hend]
      simp only [herr]
      rw [if_pos hlast]
      exact ⟨by rw [hcalls, Nat.zero_add, ← hend], by rw [hqueued, hend, List.take_left]⟩

theorem Fill.first_failure {f : Fill} {iov : List (List UInt8)} (h : ¬ f.Succeeds iov) :
    ∃ i < (writes f.left iov).length, f.rc i < 0 ∧ ∀ j < i, 0 ≤ f.rc j := by
  have hex : ∃ i, i < (writes f.left iov).length ∧ f.rc i < 0 := by
    unfold Fill.Succeeds at h
    push Not at h
    obtain ⟨i, hi, hneg⟩ := h
    exact ⟨i, hi, by omega⟩
  refine ⟨Nat.find hex, (Nat.find_spec hex).1, (Nat.find_spec hex).2, fun j hj => ?_⟩
  have hmin := Nat.find_min hex hj
  have hlen := (Nat.find_spec hex).1
  by_contra hneg
  exact hmin ⟨by omega, by omega⟩

theorem Fill.Succeeds.clean {f : Fill} {iov : List (List UInt8)} (h : f.Succeeds iov) (sent : ℕ) :
    f.Clean sent iov := by
  intro i hi hneg
  have hpos := h i hi
  omega

theorem Fill.clean_iff {f : Fill} {iov : List (List UInt8)} {i : ℕ} (hi : i < (writes f.left iov).length)
    (hneg : f.rc i < 0) (hbefore : ∀ j < i, 0 ≤ f.rc j) (sent : ℕ) :
    f.Clean sent iov ↔ sent + ((writes f.left iov).take i).sum = 0 := by
  constructor
  · intro h
    exact h i hi hneg hbefore
  · intro h k hk hkneg hkbefore
    have hki : k = i := by
      rcases Nat.lt_trichotomy k i with hlt | heq | hgt
      · have hpos := hbefore k hlt
        omega
      · exact heq
      · have hpos := hkbefore i hgt
        omega
    rwa [hki]

/-- A request that waits: the run of the sender queued `bytes`, the later ones the rest. -/
structure Request.Waiting (r : Request) : Prop where
  reported : r.reported = none
  nonneg : 0 ≤ r.bytes
  bytes_le : r.bytes ≤ r.queued.length
  rc : r.rc = int32 (r.queued.length - r.bytes)

theorem Request.foldl_reported {r : Request} {v : ℤ} (h : r.reported = some v) (fs : List Fill) :
    fs.foldl sentTcp r = r := by
  induction fs with
  | nil => rfl
  | cons f fs ih =>
    have hstep : r.sentTcp f = r := by rw [sentTcp, h]
    rw [List.foldl_cons, hstep, ih]

theorem Request.accounted_reported {r : Request} {v : ℤ} (h : r.reported = some v) :
    r.Accounted ↔ v = r.queued.length ∨ (v < 0 ∧ r.queued = []) := by
  unfold Accounted
  simp [h]

theorem Request.sentTcp_fails {r : Request} {f : Fill} (hr : r.reported = none) (hleft : f.left ≠ 0) {i : ℕ}
    (hi : i < (writes f.left r.iov).length) (hneg : f.rc i < 0) (hbefore : ∀ j < i, 0 ≤ f.rc j) :
    (r.sentTcp f).reported = some (f.rc i) ∧
      (r.sentTcp f).queued.length = r.queued.length + ((writes f.left r.iov).take i).sum := by
  obtain ⟨hrc, hlen⟩ := fillSndbuf_fails hi hneg hbefore
  rw [sentTcp, hr]
  rw [if_neg hleft, if_pos (by rwa [hrc]), hrc]
  exact ⟨rfl, by rw [List.length_append, hlen]⟩

theorem Request.sentTcp_succeeds {r : Request} {f : Fill} (h : r.Waiting) (hleft : f.left ≠ 0)
    (hf : f.Succeeds r.iov) :
    (r.sentTcp f).iov = afterFill f.left r.iov ∧ (r.sentTcp f).bytes = r.bytes ∧
      (r.sentTcp f).queued.length = r.queued.length + (writes f.left r.iov).sum ∧
      (r.sentTcp f).rc = int32 (r.queued.length + (writes f.left r.iov).sum - r.bytes) ∧
      (r.sentTcp f).reported =
        if iovecSize (afterFill f.left r.iov) = 0 then
          some (if (r.sentTcp f).rc < 0 then (r.sentTcp f).rc else int32 (r.bytes + (r.sentTcp f).rc))
        else none := by
  obtain ⟨hrc, hiov, hlen⟩ := fillSndbuf_succeeds hf
  have hpos : ¬ (fillSndbuf f r.iov).1 < 0 := by omega
  have hstep : r.sentTcp f =
      { r with
        iov := afterFill f.left r.iov
        rc := int32 (r.queued.length + (writes f.left r.iov).sum - r.bytes)
        queued := r.queued ++ (fillSndbuf f r.iov).2.2
        reported := if iovecSize (afterFill f.left r.iov) = 0 then
          some (if int32 (r.queued.length + (writes f.left r.iov).sum - r.bytes) < 0 then
            int32 (r.queued.length + (writes f.left r.iov).sum - r.bytes) else
            int32 (r.bytes + int32 (r.queued.length + (writes f.left r.iov).sum - r.bytes))) else none } := by
    have hsum : int32 (r.rc + (fillSndbuf f r.iov).1) =
        int32 (r.queued.length + (writes f.left r.iov).sum - r.bytes) := by
      rw [h.rc, int32_add]
      congr 1
      omega
    rw [sentTcp, h.reported]
    rw [if_neg hleft, if_neg hpos, hsum, hiov]
  rw [hstep]
  exact ⟨rfl, rfl, by rw [List.length_append, hlen], rfl, rfl⟩

theorem Request.foldl_accounted {r : Request} (h : r.Waiting) (fs : List Fill) :
    (fs.foldl sentTcp r).Accounted ↔ Unbroken r.queued.length r.iov fs := by
  induction fs generalizing r with
  | nil =>
    have hnone : ∀ v, r.reported ≠ some v := by simp [h.reported]
    exact ⟨fun _ => trivial, fun _ v hv => absurd hv (hnone v)⟩
  | cons f fs ih =>
    rw [List.foldl_cons, Unbroken]
    by_cases hleft : f.left = 0
    · have hstep : r.sentTcp f = r := by
        rw [sentTcp, h.reported]
        rw [if_pos hleft]
      rw [if_pos hleft, hstep]
      exact ih h
    rw [if_neg hleft]
    by_cases hf : f.Succeeds r.iov
    · obtain ⟨hiov, hbytes, hlen, hrc, hreported⟩ := sentTcp_succeeds h hleft hf
      rw [and_iff_right (hf.clean _), forall_prop_of_true hf]
      by_cases hdone : iovecSize (afterFill f.left r.iov) = 0
      · rw [if_pos hdone] at hreported ⊢
        rw [foldl_reported hreported, accounted_reported hreported, hlen, hrc]
        have hnonneg := h.nonneg
        have hle := h.bytes_le
        constructor
        · rintro (heq | ⟨-, hnil⟩)
          · have hlt' := int32_lt (r.bytes + int32 (r.queued.length + (writes f.left r.iov).sum - r.bytes))
            split at heq <;> omega
          · rw [hnil, List.length_nil] at hlen
            omega
        · intro hlt
          have hint : int32 (r.queued.length + (writes f.left r.iov).sum - r.bytes) =
              r.queued.length + (writes f.left r.iov).sum - r.bytes := int32_eq (by omega) (by omega)
          have hwhole : int32 (r.bytes + (r.queued.length + (writes f.left r.iov).sum - r.bytes)) =
              r.queued.length + (writes f.left r.iov).sum := by
            rw [int32_eq (by omega) (by omega)]
            omega
          left
          rw [hint, if_neg (by omega), hwhole]
          rfl
      · rw [if_neg hdone] at hreported ⊢
        have hwaiting : (r.sentTcp f).Waiting := by
          have hnonneg := h.nonneg
          have hle := h.bytes_le
          exact ⟨hreported, by omega, by omega, by rw [hrc, hlen, hbytes]; rfl⟩
        rw [ih hwaiting, hlen, hiov]
    · obtain ⟨i, hi, hneg, hbefore⟩ := f.first_failure hf
      obtain ⟨hreported, hlen⟩ := sentTcp_fails h.reported hleft hi hneg hbefore
      rw [foldl_reported hreported, accounted_reported hreported, f.clean_iff hi hneg hbefore]
      constructor
      · rintro (heq | ⟨-, hnil⟩)
        · omega
        · rw [hnil, List.length_nil] at hlen
          exact ⟨by omega, fun hs => absurd hs hf⟩
      · rintro ⟨hzero, -⟩
        rw [hzero, List.length_eq_zero_iff] at hlen
        exact Or.inr ⟨hneg, hlen⟩

/-- A second buffer for which `tcp_enqueue` has no memory, after the first was queued. -/
def secondFails : Fill := ⟨10, fun n => if n = 1 then -12 else 0, by decide⟩

end SimpleKernel.Tcp

import Mathlib.Algebra.GroupWithZero.Nat
import Mathlib.Algebra.Group.Int.Defs
import Mathlib.Algebra.BigOperators.Group.List.Basic
import Mathlib.Data.List.Range
import Mathlib.Logic.Function.Basic

/-! Copying from and to a list of buffers (`sys/krnl/iovec.c`), which is used up in place. -/
namespace SimpleKernel.Os
open Function (update)

/-- `struct iovec`. -/
structure Iovec where
  base : ℕ
  len : ℕ

def getIovecSize (iov : List Iovec) : ℕ := (iov.map Iovec.len).sum % 2 ^ 32

/-- The list of buffers after a call, the number of bytes that it returns, and what it copied to. -/
structure Transfer (σ : Type) where
  iov : List Iovec
  moved : ℕ
  data : σ

/-- The loop of both functions; `copy base len` is `memcpy` between the bytes at `base` and the buffer of the call. -/
def iovecLoop {σ : Type} (copy : ℕ → ℕ → σ → σ) : List Iovec → ℕ → σ → Transfer σ
  | [], _, s => ⟨[], 0, s⟩
  | v :: iov, count, s =>
    if count = 0 then ⟨v :: iov, 0, s⟩
    else if 0 < v.len then
      let len := if count < v.len then count else v.len
      let r := iovecLoop copy iov (count - len) (copy v.base len s)
      ⟨⟨v.base + len, v.len - len⟩ :: r.iov, len + r.moved, r.data⟩
    else
      let r := iovecLoop copy iov count s
      ⟨v :: r.iov, r.moved, r.data⟩

/-- Bytes are stored at addresses, one after the other. -/
def store (mem : ℕ → UInt8) (l : List (ℕ × UInt8)) : ℕ → UInt8 := l.foldl (fun m x => update m x.1 x.2) mem

def readIovec (mem : ℕ → UInt8) (iov : List Iovec) (count : ℕ) : Transfer (List UInt8) :=
  iovecLoop (fun base len buf => buf ++ (List.range' base len).map mem) iov count []

/-- `write_iovec`; `count` is the length of `buf`. -/
def writeIovec (mem : ℕ → UInt8) (iov : List Iovec) (buf : List UInt8) : Transfer (ℕ → UInt8) :=
  let r := iovecLoop (fun base len (s : (ℕ → UInt8) × List UInt8) =>
    (store s.1 ((List.range' base len).zip s.2), s.2.drop len)) iov buf.length (mem, buf)
  ⟨r.iov, r.moved, r.data.1⟩

/-- Several calls of `read_iovec` on one list, with what they return and copy put together. -/
def readCalls (mem : ℕ → UInt8) : List ℕ → List Iovec → Transfer (List UInt8)
  | [], iov => ⟨iov, 0, []⟩
  | count :: counts, iov =>
    let r := readIovec mem iov count
    let s := readCalls mem counts r.iov
    ⟨s.iov, r.moved + s.moved, r.data ++ s.data⟩

def writeCalls : List (List UInt8) → (ℕ → UInt8) → List Iovec → Transfer (ℕ → UInt8)
  | [], mem, iov => ⟨iov, 0, mem⟩
  | buf :: bufs, mem, iov =>
    let r := writeIovec mem iov buf
    let s := writeCalls bufs r.data r.iov
    ⟨s.iov, r.moved + s.moved, s.data⟩

/-- The addresses of the bytes of all buffers in order. -/
def addrs (iov : List Iovec) : List ℕ := iov.flatMap fun v => List.range' v.base v.len

/-- The list after `n` bytes. -/
def advance : List Iovec → ℕ → List Iovec
  | [], _ => []
  | v :: iov, n => ⟨v.base + min n v.len, v.len - min n v.len⟩ :: advance iov (n - min n v.len)

variable {σ : Type} {iov : List Iovec} {mem : ℕ → UInt8}

theorem advance_zero (iov : List Iovec) : advance iov 0 = iov := by
  induction iov with
  | nil => rfl
  | cons v iov ih => simp [advance, ih]

theorem advance_add (iov : List Iovec) (m n : ℕ) : advance iov (m + n) = advance (advance iov m) n := by
  induction iov generalizing m n with
  | nil => rfl
  | cons v iov ih =>
    rw [advance, advance, advance, ← ih, List.cons.injEq, Iovec.mk.injEq]
    dsimp only
    refine ⟨⟨by omega, by omega⟩, congrArg (advance iov) ?_⟩
    omega

theorem length_addrs (iov : List Iovec) : (addrs iov).length = (iov.map Iovec.len).sum := by
  simp [addrs]

theorem addrs_cons (v : Iovec) (iov : List Iovec) : addrs (v :: iov) = List.range' v.base v.len ++ addrs iov := by
  rw [addrs, List.flatMap_cons, addrs]

theorem addrs_advance (iov : List Iovec) (n : ℕ) : addrs (advance iov n) = (addrs iov).drop n := by
  induction iov generalizing n with
  | nil => simp [addrs, advance]
  | cons v iov ih =>
    rw [advance, addrs_cons, addrs_cons, List.drop_append, List.length_range', ih, List.drop_range', Nat.mul_one]
    rcases le_total n v.len with hle | hle
    · rw [Nat.min_eq_left hle, Nat.sub_self, Nat.sub_eq_zero_of_le hle]
    · rw [Nat.min_eq_right hle, Nat.sub_self, Nat.sub_eq_zero_of_le hle]
      rfl

theorem iovecLoop_eq {copy : ℕ → ℕ → σ → σ} (each : σ → ℕ → σ)
    (hcopy : ∀ base len s, copy base len s = (List.range' base len).foldl each s) (iov : List Iovec) (n : ℕ) (s : σ) :
    iovecLoop copy iov n s = ⟨advance iov n, min n (addrs iov).length, ((addrs iov).take n).foldl each s⟩ := by
  induction iov generalizing n s with
  | nil => simp [iovecLoop, advance, addrs]
  | cons v iov ih =>
    obtain ⟨base, len⟩ := v
    rw [iovecLoop, advance, addrs_cons]
    dsimp only
    split
    · next hzero => simp [hzero, advance_zero]
    split
    · have hmin : (if n < len then n else len) = min n len := by split <;> omega
      have htake : (List.range' base len ++ addrs iov).take n =
          List.range' base (min n len) ++ (addrs iov).take (n - min n len) := by
        rw [List.take_append, List.length_range']
        rcases le_total n len with hle | hle
        · rw [List.take_range'_of_length_ge hle, Nat.min_eq_left hle, Nat.sub_self, Nat.sub_eq_zero_of_le hle]
        · rw [List.take_range'_of_length_le hle, Nat.min_eq_right hle]
      rw [hmin, ih, hcopy, htake, List.foldl_append, List.length_append, List.length_range', Transfer.mk.injEq]
      refine ⟨rfl, ?_, rfl⟩
      dsimp only
      omega
    · next hempty =>
      obtain rfl : len = 0 := by omega
      rw [ih]
      simp

theorem readIovec_eq (mem : ℕ → UInt8) (iov : List Iovec) (n : ℕ) : readIovec mem iov n =
    ⟨advance iov n, min n (addrs iov).length, ((addrs iov).take n).map mem⟩ := by
  have hload (l : List ℕ) (buf : List UInt8) : l.foldl (fun buf a => buf ++ [mem a]) buf = buf ++ l.map mem := by
    induction l generalizing buf with
    | nil => simp
    | cons a l ih => simp [ih]
  rw [readIovec, iovecLoop_eq (fun buf a => buf ++ [mem a]) fun base len buf => (hload _ buf).symm, hload]
  rfl

theorem writeIovec_eq (mem : ℕ → UInt8) (iov : List Iovec) (buf : List UInt8) : writeIovec mem iov buf =
    ⟨advance iov buf.length, min buf.length (addrs iov).length, store mem ((addrs iov).zip buf)⟩ := by
  let each (s : (ℕ → UInt8) × List UInt8) (a : ℕ) := (store s.1 ([a].zip s.2), s.2.drop 1)
  have hstore (l : List ℕ) (s : (ℕ → UInt8) × List UInt8) :
      l.foldl each s = (store s.1 (l.zip s.2), s.2.drop l.length) := by
    induction l generalizing s with
    | nil => rfl
    | cons a l ih =>
      rw [List.foldl_cons, ih]
      cases hs : s.2 with
      | nil => simp [each, hs, store]
      | cons b left => simp [each, hs, store]
  have hzip : ((addrs iov).take buf.length).zip buf = (addrs iov).zip buf := by
    have htake : ((addrs iov).zip buf).take buf.length = ((addrs iov).take buf.length).zip (buf.take buf.length) :=
      List.take_zipWith
    rw [List.take_length, List.take_of_length_le (List.length_zip.trans_le (Nat.min_le_right ..))] at htake
    exact htake.symm
  rw [writeIovec, iovecLoop_eq each fun base len s => by rw [hstore, List.length_range'], hstore, ← hzip]

theorem zip_append_right {α β : Type} (l : List α) (xs ys : List β) :
    l.zip (xs ++ ys) = l.zip xs ++ (l.drop xs.length).zip ys := by
  induction xs generalizing l with
  | nil => simp
  | cons x xs ih =>
    cases l with
    | nil => simp
    | cons a l => simp [ih]

theorem readCalls_eq (mem : ℕ → UInt8) (counts : List ℕ) (iov : List Iovec) :
    readCalls mem counts iov = readIovec mem iov counts.sum := by
  induction counts generalizing iov with
  | nil => simp [readCalls, readIovec_eq, advance_zero]
  | cons count counts ih =>
    simp only [readCalls, ih, readIovec_eq, addrs_advance, List.sum_cons, Transfer.mk.injEq, List.length_drop]
    refine ⟨(advance_add ..).symm, by omega, ?_⟩
    rw [List.take_add, List.map_append]

theorem writeCalls_eq (bufs : List (List UInt8)) (mem : ℕ → UInt8) (iov : List Iovec) :
    writeCalls bufs mem iov = writeIovec mem iov bufs.flatten := by
  induction bufs generalizing mem iov with
  | nil => simp [writeCalls, writeIovec_eq, advance_zero, store]
  | cons buf bufs ih =>
    simp only [writeCalls, ih, writeIovec_eq, addrs_advance, List.flatten_cons, Transfer.mk.injEq, List.length_drop,
      List.length_append]
    refine ⟨(advance_add ..).symm, by omega, ?_⟩
    rw [zip_append_right, store, store, store, List.foldl_append]

/-- The call moves `count` bytes or all that are left, and the buffers then are what is behind them. -/
structure Advances (iov : List Iovec) (count : ℕ) (r : Transfer σ) : Prop where
  moved : r.moved = min count (getIovecSize iov)
  size : getIovecSize r.iov + r.moved = getIovecSize iov
  behind : addrs r.iov = (addrs iov).drop r.moved

theorem Advances.of_eq {n : ℕ} {r : Transfer σ} (hsize : (addrs iov).length < 2 ^ 32) (hiov : r.iov = advance iov n)
    (hmoved : r.moved = min n (addrs iov).length) : Advances iov n r := by
  have hbehind : addrs r.iov = (addrs iov).drop r.moved := by
    rw [hiov, addrs_advance, hmoved]
    rcases le_total n (addrs iov).length with hle | hle
    · rw [Nat.min_eq_left hle]
    · rw [Nat.min_eq_right hle, List.drop_of_length_le hle, List.drop_length]
  have hlen : getIovecSize iov = (addrs iov).length := by rw [getIovecSize, ← length_addrs, Nat.mod_eq_of_lt hsize]
  refine ⟨by rw [hlen, hmoved], ?_, hbehind⟩
  rw [getIovecSize, ← length_addrs, hbehind, List.length_drop]
  omega

/-- Whatever calls came before, they moved the first bytes of the buffers in order, as one call would have. -/
theorem iovec_copying (iov : List Iovec) (htotal : (iov.map Iovec.len).sum < 2 ^ 31) :
    (∀ mem counts count,
      (readCalls mem counts iov).data = ((addrs iov).take counts.sum).map mem ∧
      readCalls mem counts iov = readIovec mem iov counts.sum ∧
      Advances (readCalls mem counts iov).iov count (readIovec mem (readCalls mem counts iov).iov count)) ∧
    ∀ mem bufs buf,
      (writeCalls bufs mem iov).data = store mem ((addrs iov).zip bufs.flatten) ∧
      writeCalls bufs mem iov = writeIovec mem iov bufs.flatten ∧
      Advances (writeCalls bufs mem iov).iov buf.length
        (writeIovec (writeCalls bufs mem iov).data (writeCalls bufs mem iov).iov buf) := by
  have hsize (n : ℕ) : (addrs (advance iov n)).length < 2 ^ 32 := by
    rw [addrs_advance, List.length_drop, length_addrs]
    omega
  constructor
  · intro mem counts count
    rw [readCalls_eq, readIovec_eq, readIovec_eq]
    exact ⟨rfl, rfl, .of_eq (hsize _) rfl rfl⟩
  · intro mem bufs buf
    rw [writeCalls_eq, writeIovec_eq, writeIovec_eq]
    exact ⟨rfl, rfl, .of_eq (hsize _) rfl rfl⟩

theorem iovec_copying_empty_between :
    (readCalls (fun a => .ofNat a) [1, 2] [⟨10, 2⟩, ⟨0, 0⟩, ⟨20, 3⟩]).data = [10, 11, 20] :=
  ((iovec_copying [⟨10, 2⟩, ⟨0, 0⟩, ⟨20, 3⟩] (by decide)).1 (fun a => .ofNat a) [1, 2] 0).1

theorem store_of_notMem {l : List ℕ} {a : ℕ} (ha : a ∉ l) (mem : ℕ → UInt8) (buf : List UInt8) :
    store mem (l.zip buf) a = mem a := by
  induction l generalizing mem buf with
  | nil => rfl
  | cons b l ih =>
    rw [List.mem_cons, not_or] at ha
    cases buf with
    | nil => rfl
    | cons x buf => exact (ih ha.2 _ buf).trans (Function.update_of_ne ha.1 ..)

theorem map_store {l : List ℕ} (hl : l.Nodup) (mem : ℕ → UInt8) {buf : List UInt8} (hbuf : buf.length ≤ l.length) :
    (l.take buf.length).map (store mem (l.zip buf)) = buf := by
  induction l generalizing mem buf with
  | nil => rw [List.length_eq_zero_iff.mp (Nat.le_zero.mp hbuf), List.take_nil, List.map_nil]
  | cons a l ih =>
    rw [List.nodup_cons] at hl
    cases buf with
    | nil => rfl
    | cons x buf =>
      refine congrArg₂ List.cons ?_ (ih hl.2 _ (Nat.le_of_succ_le_succ hbuf))
      exact (store_of_notMem hl.1 _ buf).trans (Function.update_self ..)

end SimpleKernel.Os

import SimpleKernel.Vfs.TextRead
import Mathlib.Data.Nat.Find

/-! `write_translated` (`krnl/vfs.c`): LF is written as CR LF, through a buffer that is filled and written in turn. -/
namespace SimpleKernel.Vfs

def lfbufsiz : ℕ := 1025

/-- Every LF with a CR before it. -/
def expand : List UInt8 → List UInt8
  | [] => []
  | ch :: rest => if ch = lf then cr :: ch :: expand rest else ch :: expand rest

namespace TextFile

/-- The loop that fills the buffer with `q` bytes in it: what it puts there, the LFs it counts, and the rest of the
data. -/
def fillBuf : ℕ → List UInt8 → List UInt8 × ℕ × List UInt8
  | _, [] => ([], 0, [])
  | q, ch :: rest =>
    if q < lfbufsiz - 1 then
      if ch = lf then
        let r := fillBuf (q + 2) rest
        (cr :: ch :: r.1, r.2.1 + 1, r.2.2)
      else
        let r := fillBuf (q + 1) rest
        (ch :: r.1, r.2.1, r.2.2)
    else ([], 0, ch :: rest)

/-- The data that goes into the buffer. -/
def taken : ℕ → List UInt8 → List UInt8
  | _, [] => []
  | q, ch :: rest => if q < lfbufsiz - 1 then ch :: taken (q + if ch = lf then 2 else 1) rest else []

theorem fillBuf_eq (q : ℕ) (data : List UInt8) :
    fillBuf q data = (expand (taken q data), (taken q data).count lf, data.drop (taken q data).length) := by
  induction data generalizing q with
  | nil => rfl
  | cons ch rest ih =>
    rw [fillBuf, taken]
    split
    · split
      · next hch =>
        subst hch
        rw [ih, List.count_cons_self]
        rfl
      · next hch =>
        rw [ih, expand, if_neg hch, List.count_cons_of_ne hch]
        rfl
    · rfl

theorem taken_isPrefix (q : ℕ) (data : List UInt8) : taken q data <+: data := by
  induction data generalizing q with
  | nil => exact List.prefix_rfl
  | cons ch rest ih =>
    rw [taken]
    split
    · exact (List.prefix_cons_inj ch).mpr (ih _)
    · exact List.nil_prefix

theorem taken_cons (ch : UInt8) (rest : List UInt8) :
    taken 0 (ch :: rest) = ch :: taken (0 + if ch = lf then 2 else 1) rest := by
  rw [taken, if_pos (by decide)]

/- The results of the writes: how many bytes of the buffer each writes at most, or its error. -/
variable (results : ℕ → Except ℤ ℕ)

/-- The loop over the data that is left. The counters are exact, for where `int`s wrap their difference is the same. -/
def writeLoop (results : ℕ → Except ℤ ℕ) (file : Cursor UInt8) (data : List UInt8) (bytes lfcnt : ℤ) :
    Except ℤ ℤ × Cursor UInt8 :=
  match data with
  | [] => (.ok (bytes - lfcnt), file)
  | ch :: left =>
    let r := fillBuf 0 (ch :: left)
    match results 0 with
    | .error e => (.error e, file)
    | .ok m =>
      let rc := min m r.1.length
      let file := file.puts 0 (r.1.take rc)
      if rc < r.1.length then (.ok (bytes + rc - (lfcnt + r.2.1)), file)
      else writeLoop (fun i => results (i + 1)) file r.2.2 (bytes + rc) (lfcnt + r.2.1)
termination_by data.length
decreasing_by
  rw [fillBuf_eq, List.length_drop, taken_cons, List.length_cons]
  simp only [List.length_cons]
  omega

def writeTranslated (file : Cursor UInt8) (data : List UInt8) : Except ℤ ℤ × Cursor UInt8 :=
  writeLoop results file data 0 0

/-- The parts of the data that go into the buffer in turn. -/
def chunks : List UInt8 → List (List UInt8)
  | [] => []
  | ch :: left => taken 0 (ch :: left) :: chunks ((ch :: left).drop (taken 0 (ch :: left)).length)
termination_by data => data.length
decreasing_by
  rw [List.length_drop, taken_cons, List.length_cons]
  simp only [List.length_cons]
  omega

/-- The write of the chunk `c`, the `i`-th, writes all of it. -/
def Full (i : ℕ) (c : List UInt8) : Prop := ∃ m, results i = .ok m ∧ (expand c).length ≤ m

end TextFile

theorem expand_append (xs ys : List UInt8) : expand (xs ++ ys) = expand xs ++ expand ys := by
  induction xs with
  | nil => rfl
  | cons ch xs ih =>
    rw [List.cons_append, expand, expand, ih]
    split <;> rfl

theorem length_expand (data : List UInt8) : (expand data).length = data.length + data.count lf := by
  induction data with
  | nil => rfl
  | cons ch data ih =>
    rw [expand]
    split
    · next hch =>
      subst hch
      simp only [List.length_cons, List.count_cons_self]
      omega
    · next hch =>
      simp only [List.length_cons, List.count_cons_of_ne hch]
      omega

theorem expand_take_isPrefix (data : List UInt8) (k : ℕ) : expand (data.take k) <+: expand data :=
  ⟨expand (data.drop k), by rw [← expand_append, List.take_append_drop]⟩

theorem take_length_expand (data : List UInt8) (k : ℕ) :
    (expand data).take (expand (data.take k)).length = expand (data.take k) :=
  (List.prefix_iff_eq_take.mp (expand_take_isPrefix data k)).symm

theorem length_expand_take_lt {data : List UInt8} {k n : ℕ} (hkn : k < n) (hn : n ≤ data.length) :
    (expand (data.take k)).length < (expand (data.take n)).length := by
  have hprefix := (List.take_prefix_take_left hkn.le : data.take k <+: data.take n)
  have hcount := hprefix.sublist.count_le lf
  rw [length_expand, length_expand, List.length_take, List.length_take]
  omega

theorem translate_expand (data : List UInt8) : translate (expand data) = data := by
  induction data with
  | nil => rfl
  | cons ch data ih =>
    rw [expand]
    split
    · next hch => rw [hch, translate_crlf, ih]
    · rw [← congrArg (ch :: ·) ih]
      cases data with
      | nil => rfl
      | cons c data =>
        -- an expansion does not begin with an LF
        rw [expand]
        split
        · exact translate_cons_cons_ne (by decide) _
        · next hc => exact translate_cons_cons_ne hc _

namespace TextFile

/-- How many bytes of the data are written completely when `w` is written. -/
def complete (data w : List UInt8) : ℕ := Nat.findGreatest (fun k => expand (data.take k) <+: w) data.length

theorem complete_expand {data : List UInt8} {k : ℕ} (hk : k ≤ data.length) :
    complete data (expand (data.take k)) = k := by
  refine le_antisymm (not_lt.mp fun hlt => ?_) (Nat.le_findGreatest hk List.prefix_rfl)
  have hle : complete data (expand (data.take k)) ≤ data.length := Nat.findGreatest_le _
  have hprefix : expand (data.take (complete data (expand (data.take k)))) <+: expand (data.take k) :=
    Nat.findGreatest_spec (P := fun j => expand (data.take j) <+: expand (data.take k)) hk List.prefix_rfl
  exact absurd hprefix.length_le (not_le.mpr (length_expand_take_lt hlt hle))

variable {results : ℕ → Except ℤ ℕ}

theorem chunks_cons (ch : UInt8) (left : List UInt8) :
    chunks (ch :: left) =
      taken 0 (ch :: left) :: chunks ((ch :: left).drop (taken 0 (ch :: left)).length) := by
  rw [chunks]

theorem chunks_flatten (data : List UInt8) : (chunks data).flatten = data := by
  induction data using chunks.induct with
  | case1 => rw [chunks]; rfl
  | case2 ch left ih =>
    rw [chunks_cons, List.flatten_cons, ih]
    nth_rewrite 1 [List.prefix_iff_eq_take.mp (taken_isPrefix 0 (ch :: left))]
    exact List.take_append_drop _ _

theorem writeLoop_full (results : ℕ → Except ℤ ℕ) (data : List UInt8) (i : ℕ) (file : Cursor UInt8) (bytes lfcnt : ℤ)
    (hfull : ∀ j c, j < i → (chunks data)[j]? = some c → Full results j c) (hi : i ≤ (chunks data).length) :
    writeLoop results file data bytes lfcnt =
        writeLoop (fun j => results (j + i)) (file.puts 0 (expand ((chunks data).take i).flatten))
          ((chunks data).drop i).flatten (bytes + (expand ((chunks data).take i).flatten).length)
          (lfcnt + ((chunks data).take i).flatten.count lf) ∧
      chunks ((chunks data).drop i).flatten = (chunks data).drop i := by
  induction data using chunks.induct generalizing i results file bytes lfcnt with
  | case1 =>
    have hnil : chunks [] = [] := by rw [chunks]
    rw [hnil] at hi ⊢
    obtain rfl : i = 0 := Nat.le_zero.mp hi
    exact ⟨by simp [expand], by simpa using hnil⟩
  | case2 ch left ih =>
    cases i with
    | zero => exact ⟨by simp [expand, chunks_flatten], by simp [chunks_flatten]⟩
    | succ i =>
      rw [chunks_cons] at hfull hi ⊢
      obtain ⟨m, hm, hlong⟩ := hfull 0 _ (Nat.succ_pos i) rfl
      have hrest := ih (fun j => results (j + 1)) i (file.puts 0 (expand (taken 0 (ch :: left))))
        (bytes + (expand (taken 0 (ch :: left))).length) (lfcnt + (taken 0 (ch :: left)).count lf)
        (fun j c hj hc => hfull (j + 1) c (Nat.succ_lt_succ hj) hc) (Nat.le_of_succ_le_succ hi)
      rw [List.take_succ_cons, List.flatten_cons]
      refine ⟨?_, hrest.2⟩
      rw [writeLoop, fillBuf_eq, hm]
      dsimp only
      rw [Nat.min_eq_right hlong, if_neg (lt_irrefl _), List.take_length, hrest.1, expand_append, Cursor.puts_append,
        List.length_append, List.count_append, Int.natCast_add, Int.natCast_add, ← Int.add_assoc, ← Int.add_assoc]
      rfl

theorem full_or_first (results : ℕ → Except ℤ ℕ) (data : List UInt8) :
    (∀ j c, (chunks data)[j]? = some c → Full results j c) ∨
      ∃ i c, (chunks data)[i]? = some c ∧ ¬ Full results i c ∧
        ∀ j c, j < i → (chunks data)[j]? = some c → Full results j c := by
  classical
  by_cases h : ∃ i c, (chunks data)[i]? = some c ∧ ¬ Full results i c
  · obtain ⟨c, hc, hnot⟩ := Nat.find_spec h
    refine .inr ⟨Nat.find h, c, hc, hnot, fun j c hj hc => ?_⟩
    by_contra hj'
    exact Nat.find_min h hj ⟨c, hc, hj'⟩
  · refine .inl fun j c hc => ?_
    by_contra hj
    exact h ⟨j, c, hc, hj⟩

theorem writeTranslated_full {data : List UInt8} (file : Cursor UInt8)
    (hfull : ∀ j c, (chunks data)[j]? = some c → Full results j c) :
    writeTranslated results file data = (.ok data.length, file.puts 0 (expand data)) := by
  have hall := (writeLoop_full results data _ file 0 0 (fun j c _ => hfull j c) le_rfl).1
  rw [List.drop_length, List.take_length, chunks_flatten, List.flatten_nil, writeLoop, length_expand] at hall
  rw [writeTranslated, hall]
  congr 2
  omega

theorem writeTranslated_stop {data c : List UInt8} {i : ℕ} (file : Cursor UInt8) (hc : (chunks data)[i]? = some c)
    (hfull : ∀ j c, j < i → (chunks data)[j]? = some c → Full results j c) :
    (∀ e, results i = .error e → writeTranslated results file data =
        (.error e, file.puts 0 (expand ((chunks data).take i).flatten))) ∧
      ∀ m, results i = .ok m → m < (expand c).length → writeTranslated results file data =
        (.ok (((chunks data).take i).flatten.length + m - c.count lf),
          file.puts 0 (expand ((chunks data).take i).flatten ++ (expand c).take m)) := by
  obtain ⟨hlt, hget⟩ := List.getElem?_eq_some_iff.mp hc
  obtain ⟨hloop, hrest⟩ := writeLoop_full results data i file 0 0 hfull hlt.le
  rw [List.drop_eq_getElem_cons hlt, hget] at hloop hrest
  rw [writeTranslated, hloop]
  cases hleft : (c :: (chunks data).drop (i + 1)).flatten with
  | nil =>
    rw [hleft, chunks] at hrest
    cases hrest
  | cons ch left =>
    rw [hleft, chunks_cons] at hrest
    have htaken : taken 0 (ch :: left) = c := (List.cons.inj hrest).1
    rw [writeLoop, fillBuf_eq, htaken, Nat.zero_add]
    constructor
    · intro e he
      rw [he]
    · intro m hm hshort
      rw [hm]
      dsimp only
      rw [Nat.min_eq_left hshort.le, if_pos hshort, Cursor.puts_append, length_expand]
      congr 2
      omega

/-- All of the data is reported when no write is short, and otherwise just the bytes whose expansions are written,
with nothing written of the others. -/
structure Reports (results : ℕ → Except ℤ ℕ) (file : Cursor UInt8) (data : List UInt8) : Prop where
  written : ∃ w, w <+: expand data ∧ (writeTranslated results file data).2 = file.puts 0 w ∧
    ∀ n : ℕ, (writeTranslated results file data).1 = .ok n → n = complete data w ∧ w = expand (data.take n)
  full : (∀ j c, (chunks data)[j]? = some c → Full results j c) →
    (writeTranslated results file data).1 = .ok data.length

/-- The write of the chunk `c` stops after `m` bytes between the expansions of two bytes, and no LF is left behind it;
or the bytes before the chunk and these bytes are fewer than the LFs in the chunk. -/
def StopsWell (before : ℕ) (c : List UInt8) (m : ℕ) : Prop :=
  (∃ k, m = (expand (c.take k)).length ∧ lf ∉ c.drop k) ∨ before + m < c.count lf

theorem length_expand_take {c : List UInt8} {k : ℕ} (hk : k ≤ c.length) :
    (expand (c.take k)).length + (c.drop k).count lf = k + c.count lf := by
  have hcount : c.count lf = (c.take k).count lf + (c.drop k).count lf := by
    rw [← List.count_append, List.take_append_drop]
  rw [length_expand, List.length_take, Nat.min_eq_left hk, hcount, Nat.add_assoc]

theorem take_front_append {front c back : List UInt8} {k : ℕ} (hk : k ≤ c.length) :
    (front ++ c ++ back).take (front.length + k) = front ++ c.take k := by
  rw [List.append_assoc, List.take_length_add_append, List.take_append_of_le_length hk]

theorem stopsWell_iff {front c : List UInt8} (back : List UInt8) {m : ℕ} (hshort : m < (expand c).length) :
    (∀ n : ℕ, (front.length + m - c.count lf : ℤ) = n →
        n = complete (front ++ c ++ back) (expand front ++ (expand c).take m) ∧
          expand front ++ (expand c).take m = expand ((front ++ c ++ back).take n)) ↔
      StopsWell front.length c m := by
  have hm : ((expand c).take m).length = m := by rw [List.length_take, Nat.min_eq_left hshort.le]
  constructor
  · intro h
    by_cases hneg : front.length + m < c.count lf
    · exact .inr hneg
    obtain ⟨n, hn⟩ : ∃ n : ℕ, (front.length + m - c.count lf : ℤ) = n :=
      ⟨front.length + m - c.count lf, by omega⟩
    obtain ⟨hcomplete, hw⟩ := h n hn
    have hle : n ≤ (front ++ c ++ back).length := hcomplete.trans_le (Nat.findGreatest_le _)
    have hlen := congrArg List.length hw
    rw [List.length_append, hm] at hlen
    -- the bytes written end in the chunk
    have hfront : front.length ≤ n := by
      by_contra hlt
      have hless := length_expand_take_lt (not_le.mp hlt) (by simp : front.length ≤ (front ++ c ++ back).length)
      rw [List.append_assoc front, List.take_left] at hless
      rw [List.append_assoc front] at hlen
      omega
    obtain ⟨k, rfl⟩ := Nat.exists_eq_add_of_le hfront
    have hk : k ≤ c.length := by
      by_contra hlt
      have hmore := length_expand_take_lt (Nat.add_lt_add_left (not_le.mp hlt) front.length) hle
      rw [take_front_append le_rfl, List.take_length, expand_append, List.length_append] at hmore
      omega
    rw [take_front_append hk, expand_append, List.length_append] at hlen
    have hstop : m = (expand (c.take k)).length := Nat.add_left_cancel hlen
    have hexpand := length_expand_take hk
    have hnone : (c.drop k).count lf = 0 := by omega
    exact .inl ⟨k, hstop, List.count_eq_zero.mp hnone⟩
  · rintro (⟨k, rfl, hnone⟩ | hneg) n hn
    · have hk : k ≤ c.length := by
        by_contra hlt
        rw [List.take_of_length_le (not_le.mp hlt).le] at hshort
        exact lt_irrefl _ hshort
      have hexpand := length_expand_take hk
      have hcount := List.count_eq_zero.mpr hnone
      obtain rfl : n = front.length + k := by omega
      have hw : expand front ++ (expand c).take (expand (c.take k)).length =
          expand ((front ++ c ++ back).take (front.length + k)) := by
        rw [take_length_expand, take_front_append hk, expand_append]
      rw [hw]
      refine ⟨(complete_expand ?_).symm, rfl⟩
      rw [List.length_append, List.length_append]
      omega
    · omega

theorem flatten_around {data c : List UInt8} {i : ℕ} (hc : (chunks data)[i]? = some c) :
    ((chunks data).take i).flatten ++ c ++ ((chunks data).drop (i + 1)).flatten = data := by
  obtain ⟨hlt, hget⟩ := List.getElem?_eq_some_iff.mp hc
  have hsplit := congrArg List.flatten (List.take_append_drop i (chunks data))
  rw [chunks_flatten, List.drop_eq_getElem_cons hlt, hget, List.flatten_append, List.flatten_cons] at hsplit
  rw [List.append_assoc, hsplit]

/-- What a text mode write returns is right unless a short write stops inside the expansion of an LF or before an LF
that was filled in already. -/
theorem reports_iff (results : ℕ → Except ℤ ℕ) (file : Cursor UInt8) (data : List UInt8) :
    Reports results file data ↔
      ∀ i c m, (chunks data)[i]? = some c → (∀ j c, j < i → (chunks data)[j]? = some c → Full results j c) →
        results i = .ok m → m < (expand c).length → StopsWell ((chunks data).take i).flatten.length c m := by
  constructor
  · intro h i c m hc hfull hm hshort
    obtain ⟨w, -, hfile, hreport⟩ := h.written
    rw [((writeTranslated_stop file hc hfull).2 m hm hshort)] at hfile hreport
    rw [← Cursor.puts_injective 0 hfile] at hreport
    rw [← stopsWell_iff ((chunks data).drop (i + 1)).flatten hshort, flatten_around hc]
    exact fun n hn => hreport n (congrArg Except.ok hn)
  · intro h
    obtain hfull | ⟨i, c, hc, hnot, hfull⟩ := full_or_first results data
    · have hrun := writeTranslated_full file hfull
      refine ⟨⟨expand data, List.prefix_rfl, congrArg Prod.snd hrun, fun n hn => ?_⟩, fun _ => congrArg Prod.fst hrun⟩
      rw [hrun] at hn
      obtain rfl : data.length = n := Int.ofNat.inj (Except.ok.inj hn)
      have hcomplete : complete data (expand (data.take data.length)) = data.length := complete_expand le_rfl
      rw [List.take_length] at hcomplete ⊢
      exact ⟨hcomplete.symm, rfl⟩
    · refine ⟨?_, fun hall => absurd (hall i c hc) hnot⟩
      have hdata := flatten_around hc
      have hexpand := congrArg expand hdata
      rw [expand_append, expand_append, List.append_assoc] at hexpand
      cases hresult : results i with
      | error e =>
        rw [(writeTranslated_stop file hc hfull).1 e hresult]
        refine ⟨_, ?_, rfl, fun n hn => by cases hn⟩
        rw [← hexpand]
        exact List.prefix_append _ _
      | ok m =>
        have hshort : m < (expand c).length := not_le.mp fun hle => hnot ⟨m, hresult, hle⟩
        rw [(writeTranslated_stop file hc hfull).2 m hresult hshort]
        have hreport := (stopsWell_iff ((chunks data).drop (i + 1)).flatten hshort).mpr
          (h i c m hc hfull hresult hshort)
        rw [hdata] at hreport
        refine ⟨_, ?_, rfl, fun n hn => hreport n (Except.ok.inj hn)⟩
        rw [← hexpand, List.prefix_append_right_inj]
        exact (List.take_prefix _ _).trans (List.prefix_append _ _)

/-- `"ab\n"` is reported as one byte when the write stops after both letters. -/
theorem short_write_underreported : ¬ ∀ (results : ℕ → Except ℤ ℕ) (file : Cursor UInt8) (data : List UInt8),
    Reports results file data := by
  intro h
  obtain ⟨w, -, hfile, hreport⟩ := (h (fun _ => .ok 2) ⟨[], 0⟩ [97, 98, lf]).written
  have hrun : writeTranslated (fun _ => .ok 2) ⟨[], 0⟩ [97, 98, lf] = (.ok 1, ⟨[97, 98], 2⟩) := by
    rw [writeTranslated, writeLoop]
    rfl
  rw [hrun] at hfile hreport
  have hw : [97, 98] = w := Cursor.puts_injective 0 (c := ⟨[], 0⟩) hfile
  rw [← hw] at hreport
  exact absurd (hreport 1 rfl).2 (by decide)

/-- A new file that the data was written to, opened again. -/
def reopened (results : ℕ → Except ℤ ℕ) (data : List UInt8) : TextFile :=
  opened (writeTranslated results ⟨[], 0⟩ data).2.items

/-- A text that is written in full is read as it was, in reads of any sizes from 2 on. -/
theorem text_round_trip {data : List UInt8} {sizes : List ℕ}
    (hfull : ∀ j c, (chunks data)[j]? = some c → Full results j c) (hsizes : ∀ size ∈ sizes, 2 ≤ size) :
    ∃ outs : List (List UInt8), (reopened results data).returned deliver sizes = outs.map .ok ∧
      outs.flatten ++ translate ((reopened results data).after deliver sizes).pending = data := by
  have hitems : ((⟨[], 0⟩ : Cursor UInt8).puts 0 (expand data)).items = expand data := Cursor.puts_items 0 [] _
  rw [reopened, writeTranslated_full _ hfull, hitems]
  obtain ⟨outs, houts, htext, -⟩ := (opened (expand data)).returned_deliver fun size h =>
    Nat.lt_of_lt_of_le Nat.two_pos (hsizes size h)
  refine ⟨outs, houts, (htext fun call hcall hslip => ?_).trans (translate_expand data)⟩
  have hsize := hsizes _ (mem_calls_size hcall)
  rw [hslip.2.1] at hsize
  omega

theorem text_round_trip_line : ∃ outs : List (List UInt8),
    (reopened (fun _ => .ok 2) [lf]).returned deliver [2, 3] = outs.map .ok ∧
      outs.flatten ++ translate ((reopened (fun _ => .ok 2) [lf]).after deliver [2, 3]).pending = [lf] := by
  refine text_round_trip (fun j c hc => ⟨2, rfl, ?_⟩) (by decide)
  have hle := (List.sublist_flatten_of_mem (List.mem_of_getElem? hc)).length_le
  have hcount : c.count lf ≤ c.length := List.count_le_length
  rw [chunks_flatten, List.length_singleton] at hle
  rw [length_expand]
  omega

end TextFile

end SimpleKernel.Vfs

import SimpleKernel.Dfs.Directory

/-! The records of one block of a directory, and what the operations do to them. -/
namespace SimpleKernel.Dfs
open Records Splice
open Vfs (Path fnmatch maxPath)

/-- A record: `struct dentry` with its name. -/
structure Entry where
  ino : UInt32
  reclen : ℕ
  name : Path
  deriving DecidableEq

/-- The record `r` is at `p`; it is long enough for its name. -/
structure EntryAt (d : ℕ → UInt8) (p : ℕ) (r : Entry) : Prop where
  ino : get32 d p = r.ino.toNat
  reclen : deReclen d p = r.reclen
  namelen : deNamelen d p = r.name.length
  bytes : ∀ k, k < r.name.length → some (d (p + dentrySize + k)) = r.name[k]?
  nonempty : 0 < r.name.length
  short : r.name.length < maxPath
  fits : minLen r.name.length ≤ r.reclen

/-- The records `rs` fill the range from `p` to `e`. -/
abbrev Entries (d : ℕ → UInt8) (p : ℕ) (rs : List Entry) (e : ℕ) : Prop :=
  Tiles (EntryAt d) Entry.reclen p rs e

variable {d d' : ℕ → UInt8} {p q e n : ℕ} {r s : Entry} {rs pre post : List Entry} {name : Path}
  {ino : UInt32}

theorem le_minLen (l : ℕ) : dentrySize + l ≤ minLen l := by
  rw [minLen, nameAlignLen]
  omega

theorem minLen_lt (h : n < maxPath) : minLen n ≤ 268 := by
  rw [maxPath] at h
  rw [minLen, nameAlignLen, dentrySize]
  omega

namespace EntryAt

section
variable (h : EntryAt d p r)
include h

theorem congr
    (hd : ∀ o, p ≤ o → o < p + (dentrySize + r.name.length) → d' o = d o) : EntryAt d' p r := by
  have hsize : dentrySize = 12 := rfl
  refine ⟨?_, ?_, ?_, fun k hk => ?_, h.nonempty, h.short, h.fits⟩
  · rw [get32_congr fun o ho hlt => hd o ho (by omega), h.ino]
  · rw [deReclen, get32_congr fun o ho hlt => hd o (by omega) (by omega)]
    exact h.reclen
  · rw [deNamelen, get32_congr fun o ho hlt => hd o (by omega) (by omega)]
    exact h.namelen
  · rw [hd _ (by omega) (by omega), h.bytes k hk]

theorem reclen_pos : 0 < r.reclen := by
  have hfits := h.fits
  have hmin := le_minLen r.name.length
  have hpos := h.nonempty
  omega

theorem deIno : deIno d p = r.ino := by
  rw [Dfs.deIno, h.ino]
  exact UInt32.ofNat_toNat

theorem deName : deName d p = r.name := by
  apply List.ext_getElem?
  intro k
  rw [Dfs.deName, h.namelen]
  by_cases hk : k < r.name.length
  · rw [← h.bytes k hk]
    simp [hk]
  · simp [hk]

theorem hasName : hasName name d p = decide (r.name = name) := by
  rw [Dfs.hasName, fnmatch, h.deName, h.namelen]
  by_cases heq : r.name = name
  · simp [heq]
  · simp [heq, Ne.symm heq]

theorem hasRoom :
    hasRoom name d p = decide (minLen r.name.length + minLen name.length ≤ r.reclen) := by
  rw [Dfs.hasRoom, h.namelen, h.reclen]

theorem withReclen (hfits : minLen r.name.length ≤ n) (hn : n < 2 ^ 32) :
    EntryAt (put32 d (p + 4) n) p { r with reclen := n } := by
  have hsize : dentrySize = 12 := rfl
  have hout {o : ℕ} (ho : o < p + 4 ∨ p + 8 ≤ o) : put32 d (p + 4) n o = d o := put32_outside d n ho
  refine ⟨?_, ?_, ?_, fun k hk => ?_, h.nonempty, h.short, hfits⟩
  · rw [get32_congr fun o ho hlt => hout (.inl hlt), h.ino]
  · rw [deReclen, get32_put32, Nat.mod_eq_of_lt hn]
  · rw [deNamelen, get32_congr fun o ho hlt => hout (.inr ho)]
    exact h.namelen
  · rw [hout (.inr (by omega)), h.bytes k hk]

theorem withIno (ino : UInt32) :
    EntryAt (put32 d p ino.toNat) p { r with ino := ino } := by
  have hsize : dentrySize = 12 := rfl
  have hout {o : ℕ} (ho : p + 4 ≤ o) : put32 d p ino.toNat o = d o := put32_outside d _ (.inr ho)
  refine ⟨?_, ?_, ?_, fun k hk => ?_, h.nonempty, h.short, h.fits⟩
  · rw [get32_put32, Nat.mod_eq_of_lt ino.toNat_lt]
  · rw [deReclen, get32_congr fun o ho hlt => hout ho]
    exact h.reclen
  · rw [deNamelen, get32_congr fun o ho hlt => hout (by omega)]
    exact h.namelen
  · rw [hout (by omega), h.bytes k hk]

end

end EntryAt

theorem putDentry_outside (d : ℕ → UInt8) {o : ℕ} (h : o < p ∨ p + (dentrySize + name.length) ≤ o) :
    putDentry d p ino n name o = d o := by
  have hsize : dentrySize = 12 := rfl
  rw [putDentry, patch_outside _ (by omega), put32_outside _ _ (by omega), put32_outside _ _ (by omega),
    put32_outside _ _ (by omega)]

theorem putDentry_at (d : ℕ → UInt8) (p : ℕ) (ino : UInt32) (hpos : 0 < name.length)
    (hshort : name.length < maxPath) (hfits : minLen name.length ≤ n) (hn : n < 2 ^ 32) :
    EntryAt (putDentry d p ino n name) p ⟨ino, n, name⟩ := by
  have hsize : dentrySize = 12 := rfl
  have hpath : maxPath = 256 := rfl
  -- the name is behind the other fields
  have hfield {o : ℕ} (ho : o < p + dentrySize) : putDentry d p ino n name o =
      put32 (put32 (put32 d p ino.toNat) (p + 4) n) (p + 8) name.length o := patch_of_lt _ ho
  refine ⟨?_, ?_, ?_, fun k hk => ?_, hpos, hshort, hfits⟩
  · rw [get32_congr fun o ho hlt => hfield (by omega),
      get32_congr fun o ho hlt => put32_outside _ _ (by omega),
      get32_congr fun o ho hlt => put32_outside _ _ (by omega), get32_put32,
      Nat.mod_eq_of_lt ino.toNat_lt]
  · rw [deReclen, get32_congr fun o ho hlt => hfield (by omega),
      get32_congr fun o ho hlt => put32_outside _ _ (by omega), get32_put32, Nat.mod_eq_of_lt hn]
  · rw [deNamelen, get32_congr fun o ho hlt => hfield (by omega), get32_put32,
      Nat.mod_eq_of_lt (by omega)]
  · dsimp only at hk ⊢
    rw [putDentry, patch_mem _ (by omega) (by omega)]
    congr 1
    omega

namespace Entries

theorem congr (h : Entries d p rs e) (hd : ∀ o, p ≤ o → o < e → d' o = d o) : Entries d' p rs e := by
  refine Tiles.congr h fun q r hq hle hr => hr.congr fun o ho hlt => hd o (by omega) ?_
  have hfits := hr.fits
  have hmin := le_minLen r.name.length
  omega

theorem walk {t : Entry → Bool} {test : ℕ → Bool} (h : Entries d 0 rs e)
    (htest : ∀ q r, EntryAt d q r → test q = t r) :
    (walk (deReclen d) test e e none 0 = some none ∧ ∀ r ∈ rs, t r = false) ∨
      ∃ pre r post q, rs = pre ++ r :: post ∧ Splits (EntryAt d) Entry.reclen 0 pre r post e q ∧
        (∀ s ∈ pre, t s = false) ∧ t r = true ∧
        Records.walk (deReclen d) test e e none 0 =
          some (some (lastStart Entry.reclen none pre q, q)) :=
  Tiles.walk none h (fun _ _ hr => ⟨hr.reclen, hr.reclen_pos⟩) htest le_rfl

end Entries

/-! The operations on one record of a block. -/

section Operations
variable (h : Splits (EntryAt d) Entry.reclen p pre r post e q)
include h

theorem Splits.bounds : p ≤ q ∧ q + r.reclen ≤ e :=
  ⟨h.before.le, h.after.le⟩

theorem Splits.replace {mid : List Entry} (hmid : Entries d' q mid (q + r.reclen))
    (hd : ∀ o, o < q ∨ q + r.reclen ≤ o → d' o = d o) : Entries d' p (pre ++ mid ++ post) e := by
  refine (Tiles.append ?_ hmid).append ?_
  · exact Entries.congr h.before fun o _ hlt => hd o (.inl hlt)
  · exact Entries.congr h.after fun o ho _ => hd o (.inr ho)

theorem Splits.addAfter (he : e < 2 ^ 32) (ino : UInt32) (hpos : 0 < name.length)
    (hshort : name.length < maxPath)
    (hroom : minLen r.name.length + minLen name.length ≤ r.reclen) :
    Entries (addAfter d q ino name) p
      (pre ++ [{ r with reclen := minLen r.name.length },
        ⟨ino, r.reclen - minLen r.name.length, name⟩] ++ post) e := by
  have hsize : dentrySize = 12 := rfl
  obtain ⟨-, hend⟩ := Splits.bounds h
  have hmin := le_minLen r.name.length
  have hmin' := le_minLen name.length
  have hnew := putDentry_at d (q + minLen r.name.length) ino hpos hshort
    (show minLen name.length ≤ r.reclen - minLen r.name.length by omega) (by omega)
  have hold : EntryAt (putDentry d (q + minLen r.name.length) ino
      (r.reclen - minLen r.name.length) name) q r :=
    h.here.congr fun o ho hlt => putDentry_outside d (.inl (by omega))
  have hcut : EntryAt (Dfs.addAfter d q ino name) q { r with reclen := minLen r.name.length } := by
    rw [Dfs.addAfter, h.here.namelen, h.here.reclen, minus_of_le (by omega)]
    exact hold.withReclen le_rfl (by omega)
  refine Splits.replace h ⟨hcut, ?_, ?_⟩ fun o ho => ?_
  · rw [Dfs.addAfter, h.here.namelen, h.here.reclen, minus_of_le (by omega)]
    exact hnew.congr fun o ho hlt => put32_outside _ _ (.inr (by omega))
  · show q + minLen r.name.length + (r.reclen - minLen r.name.length) = q + r.reclen
    omega
  · rw [Dfs.addAfter, h.here.namelen, put32_outside _ _ (by omega)]
    exact putDentry_outside d (by omega)

theorem Splits.putIno (ino : UInt32) :
    Entries (put32 d q ino.toNat) p (pre ++ [{ r with ino := ino }] ++ post) e := by
  have hpos := h.here.fits
  have hmin := le_minLen r.name.length
  have hsize : dentrySize = 12 := rfl
  refine Splits.replace h ⟨h.here.withIno ino, rfl⟩ fun o ho => ?_
  exact put32_outside _ _ (by omega)

theorem Splits.mergeNext (he : e < 2 ^ 32) {rest : List Entry} (hpost : post = s :: rest) :
    Entries (mergeNext d q) p (pre ++ [{ s with reclen := r.reclen + s.reclen }] ++ rest) e := by
  subst hpost
  obtain ⟨hs, hrest⟩ := h.after
  have hend := hrest.le
  have hfits := hs.fits
  have hmin := le_minLen s.name.length
  have hnew := putDentry_at d q s.ino hs.nonempty hs.short
    (show minLen s.name.length ≤ r.reclen + s.reclen by omega) (by omega)
  have heq : Dfs.mergeNext d q = putDentry d q s.ino (r.reclen + s.reclen) s.name := by
    rw [Dfs.mergeNext, h.here.reclen, hs.deIno, hs.reclen, hs.deName]
  rw [heq]
  have hout {o : ℕ} (ho : o < q ∨ q + r.reclen + s.reclen ≤ o) :
      putDentry d q s.ino (r.reclen + s.reclen) s.name o = d o := putDentry_outside d (by omega)
  refine (Tiles.append ?_ (Tiles.singleton hnew)).append ?_
  · exact Entries.congr h.before fun o _ hlt => hout (.inl hlt)
  · rw [← Nat.add_assoc]
    exact Entries.congr hrest fun o ho _ => hout (.inr ho)

theorem Splits.mergePrev (he : e < 2 ^ 32) {front : List Entry} (hpre : pre = front ++ [s]) :
    Entries (mergePrev d (q - s.reclen) q) p
      (front ++ [{ s with reclen := s.reclen + r.reclen }] ++ post) e := by
  subst hpre
  obtain ⟨m, hfront, hs, rfl⟩ := Tiles.last h.before
  rw [Nat.add_sub_cancel]
  have hsize : dentrySize = 12 := rfl
  have hend := h.after.le
  have hfits := hs.fits
  have hmin := le_minLen s.name.length
  have hcut := hs.withReclen (show minLen s.name.length ≤ s.reclen + r.reclen by omega) (by omega)
  have hclear {o : ℕ} (ho : o < m + s.reclen ∨ m + s.reclen + r.reclen ≤ o) :
      Dfs.mergePrev d m (m + s.reclen) o = put32 d (m + 4) (s.reclen + r.reclen) o := by
    rw [Dfs.mergePrev, hs.reclen, h.here.reclen]
    refine patch_outside _ ?_
    rwa [List.length_replicate]
  have hmerged : EntryAt (Dfs.mergePrev d m (m + s.reclen)) m
      { s with reclen := s.reclen + r.reclen } :=
    hcut.congr fun o ho hlt => hclear (.inl (by dsimp only at hlt; omega))
  have hout {o : ℕ} (ho : o < m ∨ m + s.reclen + r.reclen ≤ o) :
      Dfs.mergePrev d m (m + s.reclen) o = d o := by
    rw [hclear (by omega), put32_outside _ _ (by omega)]
  refine (Tiles.append ?_ (Tiles.singleton hmerged)).append ?_
  · exact Entries.congr hfront fun o _ hlt => hout (.inl hlt)
  · rw [← Nat.add_assoc]
    exact Entries.congr h.after fun o ho _ => hout (.inr ho)

end Operations

end SimpleKernel.Dfs

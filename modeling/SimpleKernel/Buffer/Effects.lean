import SimpleKernel.Buffer.Moves

/-! The effect of the functions of `buf.c` on the state, the block number and the data of the
buffers. -/
namespace SimpleKernel.Buffer
open Function (update update_eq_self update_self)

variable {τ β : Type} (p : Pool τ β) (f : BufId)

section Release

/-- The state of a buffer after its last lock was released. -/
def BufState.settled : BufState → BufState
  | .locked => .clean
  | .updated => .dirty
  | .invalid | .error => .free
  | st => st

theorem settle_state : (p.settle f).state = update p.state f (p.state f).settled := by
  unfold Pool.settle
  split <;> rename_i hst <;> simp only [hst, BufState.settled]
  · rfl
  · rfl
  · rfl
  · rfl
  all_goals
    rw [← hst, update_eq_self]
    rfl

@[simp] theorem settle_data : (p.settle f).data = p.data := by
  unfold Pool.settle
  split <;> rfl

@[simp] theorem settle_blkno : (p.settle f).blkno = p.blkno := by
  unfold Pool.settle
  split <;> rfl

@[simp] theorem releaseBuffer_data : (p.releaseBuffer f).data = p.data := by
  unfold Pool.releaseBuffer
  split_ifs
  · rfl
  · exact settle_data (p.unlock f) f

@[simp] theorem releaseBuffer_blkno : (p.releaseBuffer f).blkno = p.blkno := by
  unfold Pool.releaseBuffer
  split_ifs
  · rfl
  · exact settle_blkno (p.unlock f) f

theorem releaseBuffer_state : (p.releaseBuffer f).state = update p.state f
    (if p.locks f - 1 = 0 then (p.state f).settled else p.state f) := by
  unfold Pool.releaseBuffer
  simp only [Pool.unlock_locks, update_self]
  by_cases h : p.locks f - 1 = 0
  · simp only [h]
    exact settle_state (p.unlock f) f
  · simp only [h, ne_eq, ↓reduceIte, update_eq_self]
    rfl

end Release

section Claim
variable [Zero β]

/-- The state in which `lookup_buffer` leaves a buffer that is not busy. -/
def BufState.claimed : BufState → BufState
  | .clean | .invalid => .locked
  | .dirty => .updated
  | st => st

theorem claim_state : (p.claim f).state = update p.state f (p.state f).claimed := by
  unfold Pool.claim
  split <;> rename_i hst <;> simp only [hst, BufState.claimed]
  · rw [← hst, update_eq_self]
    rfl
  · rfl
  · rfl
  · rw [← hst, update_eq_self]
  · rw [← hst, update_eq_self]
  · rw [← hst, update_eq_self]
    rfl
  · rw [← hst, update_eq_self]
    rfl
  · rfl
  · rw [← hst, update_eq_self]
    rfl

@[simp] theorem claim_blkno : (p.claim f).blkno = p.blkno := by
  unfold Pool.claim
  split <;> rfl

theorem claim_data : (p.claim f).data =
    if p.state f = .invalid then update p.data f 0 else p.data := by
  unfold Pool.claim
  split <;> rename_i hst <;> rw [hst] <;> rfl

end Claim

section Transfer

@[simp] theorem transferFinish_data (rc : ℤ) : (p.transferFinish f rc).data = p.data := by
  rw [transferFinish_spec]
  rfl

@[simp] theorem transferFinish_blkno (rc : ℤ) : (p.transferFinish f rc).blkno = p.blkno := by
  rw [transferFinish_spec]
  rfl

theorem transferFinish_states (rc : ℤ) : (p.transferFinish f rc).state =
    update p.state f (if rc = p.bufsize then .locked else .error) := by
  rw [transferFinish_spec]
  rfl

@[simp] theorem writeBufferStart_data (flush : Bool) :
    (p.writeBufferStart f flush).data = p.data := by
  unfold Pool.writeBufferStart
  split_ifs <;> rfl

@[simp] theorem writeBufferStart_blkno (flush : Bool) :
    (p.writeBufferStart f flush).blkno = p.blkno := by
  unfold Pool.writeBufferStart
  split_ifs <;> rfl

@[simp] theorem writeBufferStart_state (flush : Bool) :
    (p.writeBufferStart f flush).state = update p.state f .writing := by
  unfold Pool.writeBufferStart
  split_ifs <;> rfl

end Transfer

section Mark

@[simp] theorem markBufferUpdated_data : (p.markBufferUpdated f).data = p.data := by
  unfold Pool.markBufferUpdated
  split_ifs <;> rfl

@[simp] theorem markBufferUpdated_blkno : (p.markBufferUpdated f).blkno = p.blkno := by
  unfold Pool.markBufferUpdated
  split_ifs <;> rfl

@[simp] theorem markBufferInvalid_data : (p.markBufferInvalid f).data = p.data := by
  unfold Pool.markBufferInvalid
  split_ifs <;> rfl

@[simp] theorem markBufferInvalid_blkno : (p.markBufferInvalid f).blkno = p.blkno := by
  unfold Pool.markBufferInvalid
  split_ifs <;> rfl

theorem markBufferUpdated_state : (p.markBufferUpdated f).state = update p.state f
    (if p.state f = .locked ∨ p.state f = .invalid then .updated else p.state f) := by
  unfold Pool.markBufferUpdated
  split_ifs
  · rfl
  · rw [update_eq_self]

theorem markBufferInvalid_state : (p.markBufferInvalid f).state = update p.state f
    (if p.state f = .locked ∨ p.state f = .updated then .invalid else p.state f) := by
  unfold Pool.markBufferInvalid
  split_ifs
  · rfl
  · rw [update_eq_self]

end Mark

section Flush
variable [DecidableEq τ] (s : Sys τ β) (rc : ℤ)

theorem flushWritten_state : ∃ st, (s.flushWritten f rc).pool.state = update s.pool.state f st ∧
    (st = .clean ∨ st = .locked ∨ st = .error) ∧ (rc = s.pool.bufsize → st ≠ .error) := by
  unfold Sys.flushWritten Pool.writeBufferFinish Pool.flushFinish
  dsimp only
  by_cases hb : rc = s.pool.bufsize
  · split_ifs
    · exact ⟨.locked, by simp [transferFinish_states, hb], by simp, by simp⟩
    · exact ⟨.clean, by simp [Pool.appendClean, Pool.changeState, transferFinish_states], by simp, by simp⟩
    · exact ⟨.locked, by simp [transferFinish_states, hb], by simp, by simp⟩
  · split_ifs
    · exact ⟨.error, by simp [transferFinish_states, hb], by simp, by simp [hb]⟩
    · exact ⟨.clean, by simp [Pool.appendClean, Pool.changeState, transferFinish_states], by simp, by simp⟩
    · exact ⟨.error, by simp [transferFinish_states, hb], by simp, by simp [hb]⟩

@[simp] theorem flushWritten_data : (s.flushWritten f rc).pool.data = s.pool.data := by
  unfold Sys.flushWritten Pool.writeBufferFinish Pool.flushFinish
  dsimp only
  split_ifs
  · exact transferFinish_data s.pool f rc
  · exact transferFinish_data s.pool f rc
  · exact transferFinish_data s.pool f rc

@[simp] theorem flushWritten_blkno : (s.flushWritten f rc).pool.blkno = s.pool.blkno := by
  unfold Sys.flushWritten Pool.writeBufferFinish Pool.flushFinish
  dsimp only
  split_ifs
  · exact transferFinish_blkno s.pool f rc
  · exact transferFinish_blkno s.pool f rc
  · exact transferFinish_blkno s.pool f rc

end Flush

end SimpleKernel.Buffer

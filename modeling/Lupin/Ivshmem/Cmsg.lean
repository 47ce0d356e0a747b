import Mathlib.Data.BitVec
import Lupin.Lib.Memory

/-!
# Messages with a descriptor

`send` writes a peer id as a signed word of eight bytes, -1 for none, and a descriptor as
a control message; `recv` reads them again. Buffers are memories of their own, from
offset 0. The control buffer has the size of one control message with a descriptor.
-/

namespace Lupin.Ivshmem.Cmsg

open Lupin.Memory

/-! ## Control messages -/

/-- `sizeof(struct cmsghdr)`: `cmsg_len`, `cmsg_level`, `cmsg_type`. -/
def sizeofCmsghdr : Nat := 16

def solSocket : Nat := 1
def scmRights : Nat := 1

/-- `CMSG_ALIGN`. -/
def cmsgAlign (length : Nat) : Nat := (length + 7) / 8 * 8

/-- `CMSG_LEN`. -/
def cmsgLen (length : Nat) : Nat := cmsgAlign sizeofCmsghdr + length

/-- `sizeof(RawFd)`. -/
def sizeofRawFd : Nat := 4

/-- `sizeof(union msg_control)`. -/
def sizeofMsgControl : Nat := cmsgAlign sizeofCmsghdr + cmsgAlign sizeofRawFd

/-- A descriptor that is open: `BorrowedFd` and `OwnedFd` are never -1. -/
structure OpenFd where
  raw : BitVec 32
  valid : raw ≠ -1
deriving DecidableEq

/-- What a message leaves in the buffers of `struct msghdr`. -/
structure Msghdr where
  buffer : Mem
  control : Mem
  controllen : Nat
  controllen_le : controllen ≤ sizeofMsgControl

/-- A buffer that was cleared. -/
def cleared : Mem := fun _ => 0

/-- `CMSG_FIRSTHDR`, `none` for a null pointer. -/
def cmsgFirsthdr (msg : Msghdr) : Option Nat :=
  if msg.controllen ≥ sizeofCmsghdr then some 0 else none

/-- `CMSG_NXTHDR`. -/
def cmsgNxthdr (msg : Msghdr) (cmsg : Nat) : Option Nat :=
  if msg.control.read 8 cmsg < sizeofCmsghdr then none
  else
    let next := cmsg + cmsgAlign (msg.control.read 8 cmsg)
    if next + sizeofCmsghdr > msg.controllen ∨
        next + cmsgAlign (msg.control.read 8 next) > msg.controllen then none
    else some next

/-! ## Sending -/

/-- The word for an optional peer id. -/
def idWord : Option (BitVec 16) → BitVec 64
  | some peerId => peerId.setWidth 64
  | none => -1

/-- The stores of a control message with a descriptor. -/
def rightsStores (fd : OpenFd) : List Store :=
  [Mem.scalar 8 0 (cmsgLen sizeofRawFd), Mem.scalar 4 8 solSocket, Mem.scalar 4 12 scmRights,
    Mem.scalar 4 16 fd.raw.toNat]

/-- The message of `send`, as its receiver gets it. -/
def sent (peerId : Option (BitVec 16)) (fd : Option OpenFd) : Msghdr :=
  let buffer := cleared.apply [Mem.scalar 8 0 (idWord peerId).toNat]
  match fd with
  | some fd => ⟨buffer, cleared.apply (rightsStores fd), sizeofMsgControl, le_rfl⟩
  | none => ⟨buffer, cleared, 0, Nat.zero_le _⟩

/-! ## Receiving -/

/-- How `recv` fails: with an error, or by a descriptor -1, which `OwnedFd` refuses. -/
inductive Failure where
  | error (context : String)
  | panic
deriving DecidableEq

/-- The loop over control messages, for so many of them at most. -/
def rightsLoop (msg : Msghdr) : (rounds : Nat) → Option Nat → Option (BitVec 32)
  | 0, _ => none
  | _, none => none
  | rounds + 1, some cmsg =>
      if msg.control.read 8 cmsg = cmsgLen sizeofRawFd ∧
          msg.control.read 4 (cmsg + 8) = solSocket ∧
          msg.control.read 4 (cmsg + 12) = scmRights then
        some (BitVec.ofNat 32 (msg.control.read 4 (cmsg + 16)))
      else rightsLoop msg rounds (cmsgNxthdr msg cmsg)

/-- The peer id in a buffer; `u16::try_from` refuses other words. -/
def peerIdOf (buffer : Mem) : Except Failure (Option (BitVec 16)) :=
  let id := BitVec.ofNat 64 (buffer.read 8 0)
  if id.toInt = -1 then .ok none
  else if 0 ≤ id.toInt ∧ id.toInt < 2 ^ 16 then .ok (some (id.setWidth 16))
  else .error (.error "Received invalid peer ID")

/-- `recv`, from the return value of `recvmsg` and the buffers. The comparison is one of
unsigned numbers. -/
def recv (ret : BitVec 64) (msg : Msghdr) :
    Except Failure (Option (BitVec 16) × Option OpenFd) :=
  if ret.toNat < 8 then .error (.error "Cannot read message")
  else if ret = 0 then .error (.error "Lost connection to server")
  else
    match peerIdOf msg.buffer with
    | .error failure => .error failure
    | .ok peerId =>
        match rightsLoop msg (sizeofMsgControl / sizeofCmsghdr) (cmsgFirsthdr msg) with
        | none => .ok (peerId, none)
        | some raw => if valid : raw ≠ -1 then .ok (peerId, some ⟨raw, valid⟩) else .error .panic

/-- The bytes of the buffer that a call of `recvmsg` with this result has filled. -/
def bytesReceived (ret : BitVec 64) : Nat := min ret.toInt.toNat 8

/-! ## The control buffer holds one message -/

/-- No second control message fits, so the loop ends by itself. -/
theorem rightsLoop_rounds (msg : Msghdr) (rounds : Nat) :
    rightsLoop msg (rounds + 1) (cmsgFirsthdr msg) = rightsLoop msg 1 (cmsgFirsthdr msg) := by
  have last : cmsgNxthdr msg 0 = none := by
    have small := msg.controllen_le
    have size : sizeofMsgControl = 24 := rfl
    unfold cmsgNxthdr sizeofCmsghdr cmsgAlign
    split
    · rfl
    · dsimp only
      rw [if_pos (.inl (by omega))]
  unfold cmsgFirsthdr
  split
  · simp only [rightsLoop, last]
    cases rounds <;> rfl
  · cases rounds <;> rfl

/-! ## Round trip -/

theorem peerIdOf_idWord (peerId : Option (BitVec 16)) :
    peerIdOf (cleared.apply [Mem.scalar 8 0 (idWord peerId).toNat]) = .ok peerId := by
  have word : (cleared.apply [Mem.scalar 8 0 (idWord peerId).toNat]).read 8 0 =
      (idWord peerId).toNat :=
    Mem.read_apply_of_mem (List.pairwise_singleton _ _) (by simp) (idWord peerId).isLt _
  rw [peerIdOf, word, BitVec.ofNat_toNat, BitVec.setWidth_eq]
  cases peerId with
  | none => rfl
  | some id =>
      have small := id.isLt
      have value : (id.setWidth 64).toInt = id.toNat := by
        rw [BitVec.toInt_eq_toNat_of_lt] <;> rw [BitVec.toNat_setWidth] <;> omega
      simp only [idWord, value]
      rw [if_neg (by omega), if_pos (by omega), BitVec.setWidth_setWidth_of_le _ (by decide),
        BitVec.setWidth_eq]

theorem rightsLoop_sent (peerId : Option (BitVec 16)) (fd : Option OpenFd) :
    rightsLoop (sent peerId fd) (sizeofMsgControl / sizeofCmsghdr)
      (cmsgFirsthdr (sent peerId fd)) = fd.map (·.raw) := by
  cases fd with
  | none => rfl
  | some fd =>
      have apart : (rightsStores fd).Pairwise Store.Apart := by
        simp [rightsStores, Mem.scalar_apart]
      have reads : ∀ {n a value : Nat}, Mem.scalar n a value ∈ rightsStores fd →
          value < 256 ^ n → (cleared.apply (rightsStores fd)).read n a = value :=
        fun member fits => Mem.read_apply_of_mem apart member fits _
      have length := @reads 8 0 (cmsgLen sizeofRawFd) (by simp [rightsStores]) (by decide)
      have level := @reads 4 8 solSocket (by simp [rightsStores]) (by decide)
      have type := @reads 4 12 scmRights (by simp [rightsStores]) (by decide)
      have data := @reads 4 16 fd.raw.toNat (by simp [rightsStores]) fd.raw.isLt
      have first : cmsgFirsthdr (sent peerId (some fd)) = some 0 := rfl
      have one : sizeofMsgControl / sizeofCmsghdr = 1 := rfl
      rw [first, one, rightsLoop]
      simp only [sent, Nat.zero_add]
      rw [if_pos ⟨length, level, type⟩, data, BitVec.ofNat_toNat, BitVec.setWidth_eq]
      rfl

theorem recv_sent (peerId : Option (BitVec 16)) (fd : Option OpenFd) :
    recv 8 (sent peerId fd) = .ok (peerId, fd) := by
  have buffer : (sent peerId fd).buffer = cleared.apply [Mem.scalar 8 0 (idWord peerId).toNat] := by
    cases fd <;> rfl
  rw [recv, if_neg (by decide), if_neg (by decide), buffer, peerIdOf_idWord, rightsLoop_sent]
  cases fd with
  | none => rfl
  | some fd => exact dif_pos fd.valid

/-! ## Failed reads -/

/-- A message of a read that has stored nothing. -/
def noMessage : Msghdr := ⟨cleared, cleared, sizeofMsgControl, le_rfl⟩

/-- As an unsigned number a negative result is no short read. -/
theorem recv_negative {ret : BitVec 64} (negative : ret.toInt < 0) :
    recv ret noMessage = .ok (some 0, none) := by
  have large : 2 ^ 63 ≤ ret.toNat := by
    rw [BitVec.toInt_eq_toNat_cond] at negative
    split at negative <;> omega
  have notZero : ret ≠ 0 := by
    rintro rfl
    exact absurd large (by decide)
  rw [recv, if_neg (by omega), if_neg notZero]
  rfl

theorem received_of_recv {ret : BitVec 64} (notNegative : 0 ≤ ret.toInt) {msg : Msghdr}
    (accepted : (recv ret msg).isOk = true) : bytesReceived ret = 8 := by
  have unsigned : ret.toInt = ret.toNat := by
    rw [BitVec.toInt_eq_toNat_cond] at notNegative ⊢
    split at notNegative
    · rw [if_pos ‹_›]
    · have := ret.isLt
      omega
  have enough : 8 ≤ ret.toNat := by
    by_contra short
    rw [recv, if_pos (by omega)] at accepted
    exact absurd accepted (by decide)
  rw [bytesReceived, unsigned]
  omega

/-- What `send` writes `recv` reads, and `recv` accepts nothing but eight received bytes: both
hold for the results of `recvmsg` that are not negative. -/
theorem recv_inverts_send_and_rejects_iff (ret : BitVec 64) :
    ((∀ peerId fd, recv 8 (sent peerId fd) = .ok (peerId, fd)) ∧
      ∀ msg, (recv ret msg).isOk = true → bytesReceived ret = 8) ↔ 0 ≤ ret.toInt := by
  constructor
  · rintro ⟨_, rejects⟩
    by_contra negative
    rw [not_le] at negative
    have all := rejects noMessage (by rw [recv_negative negative]; rfl)
    rw [bytesReceived] at all
    omega
  · intro notNegative
    exact ⟨recv_sent, fun msg accepted => received_of_recv notNegative accepted⟩

/-- A call of `recvmsg` that fails is taken for a message from peer 0. -/
theorem failed_recvmsg_accepted :
    (-1 : BitVec 64).toInt = -1 ∧ bytesReceived (-1) = 0 ∧
      recv (-1) noMessage = .ok (some 0, none) := by
  decide

end Lupin.Ivshmem.Cmsg

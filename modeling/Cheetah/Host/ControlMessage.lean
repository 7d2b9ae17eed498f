import Cheetah.Lib.CString

/-! `cheetah_control_message.c`: which message a datagram is.

The receiver compares each message with as many bytes as arrived, so the start of a
message is taken for it, and so is a message that goes on behind a NUL byte. -/
namespace Cheetah.Host.ControlMessage
open Lib Lib.CString

/-! ### Code -/

/-- The `CHEETAH_CONTROL_MESSAGE_ID`s. -/
inductive MessageId where
  | undefined | filter | topn | distinct | ack
  deriving DecidableEq, Repr

/-- The number of an id. -/
def MessageId.toNat : MessageId → Nat
  | .undefined => 0
  | .filter => 1
  | .topn => 2
  | .distinct => 3
  | .ack => 4

/-- `CHEETAH_CONTROL_MESSAGE_QUERY_FILTER`, "FILT". -/
def queryFilter : List Byte := [0x46, 0x49, 0x4c, 0x54]

/-- `CHEETAH_CONTROL_MESSAGE_QUERY_TOPN`, "TOPN". -/
def queryTopn : List Byte := [0x54, 0x4f, 0x50, 0x4e]

/-- `CHEETAH_CONTROL_MESSAGE_QUERY_DISTINCT`, "DIST". -/
def queryDistinct : List Byte := [0x44, 0x49, 0x53, 0x54]

/-- `CHEETAH_CONTROL_MESSAGE_ACK`, "ACK". -/
def messageAck : List Byte := [0x41, 0x43, 0x4b]

/-- `CHEETAH_CONTROL_MESSAGE_BUFFER_LENGTH`. -/
def bufferLength : Nat := 1024

/-- `CHEETAH_CONTROL_MESSAGE_MAX_SIZE`. -/
def maxSize : Nat := 5

/-- The datagram `cheetah_control_message_offload_query` and
`cheetah_control_message_send_ack` transmit for a message. -/
def transmitted (message : List Byte) : List Byte :=
  (cString message).take (strnlen (cString message) maxSize)

/-- `cheetah_control_message_receive` once a datagram has come; `recvfrom` drops what the
buffer has no room for. -/
def receive (datagram : List Byte) : Option MessageId := do
  let recvBuffer := datagram.take (bufferLength - 1)
  let bytesReceived := recvBuffer.length
  if (← strncmp (cString queryFilter) recvBuffer bytesReceived) = 0 then return .filter
  if (← strncmp (cString queryTopn) recvBuffer bytesReceived) = 0 then return .topn
  if (← strncmp (cString queryDistinct) recvBuffer bytesReceived) = 0 then return .distinct
  if (← strncmp (cString messageAck) recvBuffer bytesReceived) = 0 then return .ack
  return .undefined

/-! ### Recognition -/

/-- The message a datagram is. -/
def intended (datagram : List Byte) : MessageId :=
  if datagram = transmitted queryFilter then .filter
  else if datagram = transmitted queryTopn then .topn
  else if datagram = transmitted queryDistinct then .distinct
  else if datagram = transmitted messageAck then .ack
  else .undefined

/-- The messages. -/
def messages : List (List Byte) := [queryFilter, queryTopn, queryDistinct, messageAck]

/-- A datagram that is taken for a message it is not: a proper prefix of the message, or the
message with a NUL byte behind it. -/
def Mistaken (message datagram : List Byte) : Prop :=
  datagram <+: message ∧ datagram ≠ message ∨ cString message <+: datagram

instance (message datagram : List Byte) : Decidable (Mistaken message datagram) :=
  inferInstanceAs (Decidable (_ ∨ _))

theorem nul_not_mem : ∀ message ∈ messages, (0 : Byte) ∉ message := by
  decide

/-- A message is transmitted whole, without its NUL. -/
theorem transmitted_eq : ∀ message ∈ messages, transmitted message = message := by
  have hshort : ∀ message ∈ messages, message.length < maxSize := by decide
  intro message hm
  exact take_strnlen (nul_not_mem message hm) (hshort message hm)

/-- Which datagrams agree with a message. -/
def Agrees (message datagram : List Byte) : Prop :=
  datagram <+: message ∨ cString message <+: datagram

instance (message datagram : List Byte) : Decidable (Agrees message datagram) :=
  inferInstanceAs (Decidable (_ ∨ _))

theorem strncmp_agrees (message : List Byte) (hm : message ∈ messages) (datagram : List Byte) :
    ∃ r, strncmp (cString message) datagram datagram.length = some r ∧ (r = 0 ↔ Agrees message datagram) := by
  exact strncmp_eq (nul_not_mem message hm)

/-- The first message a datagram agrees with. -/
theorem receive_eq {datagram : List Byte} (hlen : datagram.length ≤ 1023) :
    receive datagram = some
      (if Agrees queryFilter datagram then .filter
      else if Agrees queryTopn datagram then .topn
      else if Agrees queryDistinct datagram then .distinct
      else if Agrees messageAck datagram then .ack
      else .undefined) := by
  have hbuffer : datagram.take (bufferLength - 1) = datagram := List.take_of_length_le hlen
  obtain ⟨r₁, h₁, hiff₁⟩ := strncmp_agrees queryFilter (by decide) datagram
  obtain ⟨r₂, h₂, hiff₂⟩ := strncmp_agrees queryTopn (by decide) datagram
  obtain ⟨r₃, h₃, hiff₃⟩ := strncmp_agrees queryDistinct (by decide) datagram
  obtain ⟨r₄, h₄, hiff₄⟩ := strncmp_agrees messageAck (by decide) datagram
  unfold receive
  simp only [hbuffer, h₁, h₂, h₃, h₄, Option.bind_eq_bind, Option.bind_some, hiff₁, hiff₂, hiff₃, hiff₄,
    apply_ite some]
  rfl

/-- The messages by their text, as they are transmitted. -/
theorem intended_eq (datagram : List Byte) : intended datagram =
    if datagram = queryFilter then .filter
    else if datagram = queryTopn then .topn
    else if datagram = queryDistinct then .distinct
    else if datagram = messageAck then .ack
    else .undefined := by
  unfold intended
  rw [transmitted_eq queryFilter (by decide), transmitted_eq queryTopn (by decide),
    transmitted_eq queryDistinct (by decide), transmitted_eq messageAck (by decide)]

/-- A mistaken datagram is no message. -/
theorem Mistaken.not_mem {message datagram : List Byte} (hm : message ∈ messages)
    (h : Mistaken message datagram) : datagram ∉ messages := by
  have hapart : ∀ m ∈ messages, ∀ d ∈ messages, d <+: m → d = m := by decide
  intro hd
  rcases h with ⟨hstart, hne⟩ | hlong
  · exact hne (hapart message hm datagram hd hstart)
  · refine nul_not_mem datagram hd (hlong.subset ?_)
    rw [cString, List.mem_append]
    exact .inr (List.mem_singleton_self 0)

/-- A datagram that is not mistaken for a message agrees with it only when it is it. -/
theorem agrees_iff {message datagram : List Byte} (h : ¬ Mistaken message datagram) :
    Agrees message datagram ↔ datagram = message := by
  constructor
  · intro hagrees
    rcases hagrees with hstart | hlong
    · by_contra hne
      exact h (.inl ⟨hstart, hne⟩)
    · exact absurd (.inr hlong) h
  · intro heq
    rw [heq]
    exact .inl (List.prefix_refl message)

/-- **Recognition.** A datagram is recognised as the message it is, or as none, exactly when
it is neither the start of a message nor a message with a NUL byte behind it. -/
theorem recognised_iff {datagram : List Byte} (hlen : datagram.length ≤ 1023) :
    receive datagram = some (intended datagram) ↔ ∀ message ∈ messages, ¬ Mistaken message datagram := by
  rw [receive_eq hlen, Option.some.injEq, intended_eq]
  constructor
  · intro heq message hm hmistaken
    have hnone := hmistaken.not_mem hm
    simp only [messages, List.mem_cons, List.not_mem_nil, or_false, not_or] at hnone
    obtain ⟨h₁, h₂, h₃, h₄⟩ := hnone
    rw [if_neg h₁, if_neg h₂, if_neg h₃, if_neg h₄] at heq
    have hagrees : Agrees message datagram := hmistaken.imp And.left id
    simp only [messages, List.mem_cons, List.not_mem_nil, or_false] at hm
    -- the comparison with that message or an earlier one succeeds
    split at heq
    · cases heq
    · split at heq
      · cases heq
      · split at heq
        · cases heq
        · split at heq
          · cases heq
          · rcases hm with rfl | rfl | rfl | rfl <;> contradiction
  · intro hnot
    simp only [agrees_iff (hnot queryFilter (by decide)), agrees_iff (hnot queryTopn (by decide)),
      agrees_iff (hnot queryDistinct (by decide)), agrees_iff (hnot messageAck (by decide))]

/-- A query that is none of the messages is not mistaken for one. -/
theorem recognised_iff_other :
    receive [0x47, 0x52, 0x42, 0x59] = some (intended [0x47, 0x52, 0x42, 0x59]) ↔
      ∀ message ∈ messages, ¬ Mistaken message [0x47, 0x52, 0x42, 0x59] :=
  recognised_iff (by decide)

/-- An empty datagram starts a filter query, and the letter "A" counts as an
acknowledgement. -/
theorem stray_datagrams :
    receive [] = some .filter ∧ intended [] = .undefined ∧
      receive [0x41] = some .ack ∧ intended [0x41] = .undefined ∧
      receive [0x44, 0x49, 0x53, 0x54, 0, 0x21] = some .distinct ∧
      intended [0x44, 0x49, 0x53, 0x54, 0, 0x21] = .undefined := by
  decide

end Cheetah.Host.ControlMessage

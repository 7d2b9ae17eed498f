import Cheetah.Host.ControlMessage
import Mathlib.Data.List.Nodup

/-! `cheetah_control_message.c`: where control messages are sent and awaited.

The testbed macros fix the addresses. A worker waits for one datagram at the address of
its id; whatever comes, it goes on. An id that has no address under the macros does not
wait at all: the assertion behind the table is compiled out. -/
namespace Cheetah.Host.ControlMessage
open Lib

/-- `CHEETAH_CONTROL_MESSAGE_MASTER_IP` and the `CHEETAH_CONTROL_MESSAGE_DESTINATION_HOST`s. -/
inductive ControlHost where
  | master | destination1 | destination2 | destination3 | destination4 | destination5
  deriving DecidableEq, Repr

/-- `CHEETAH_CONTROL_MESSAGE_PORT` and `CHEETAH_CONTROL_MESSAGE_PORT_2`. -/
inductive ControlPort where
  | port | port2
  deriving DecidableEq, Repr

/-- A UDP address. -/
structure Address where
  host : ControlHost
  port : ControlPort
  deriving DecidableEq, Repr

/-- A message on the control network. -/
structure Datagram where
  dest : Address
  bytes : List Byte
  deriving DecidableEq

/-- The macros for several workers: none of them, `CHEETAH_MULTIPLE_NODES_SAME_IP` or
`CHEETAH_MULTIPLE_NODES`. -/
inductive Nodes where
  | one | sameIp | several
  deriving DecidableEq, Repr

/-- The build that `CHEETAH_TESTBED_DR_MINLAN` selects. -/
def shippedNodes : Nodes := .sameIp

/-- Where `cheetah_control_message_offload_query` sends a query, in order. -/
def offloadAddresses : Nodes → List Address
  | .one => [⟨.destination1, .port⟩]
  | .sameIp => [⟨.destination1, .port⟩, ⟨.destination1, .port2⟩]
  | .several =>
    [ ⟨.destination1, .port⟩, ⟨.destination2, .port⟩, ⟨.destination3, .port⟩, ⟨.destination4, .port⟩,
      ⟨.destination5, .port⟩ ]

/-- Where `cheetah_control_message_await_query` waits; nowhere when it returns -1 at once. -/
def awaitAddress (nodes : Nodes) (workerId : Int) : Option Address :=
  if workerId = 1 then some ⟨.destination1, .port⟩
  else match nodes with
    | .one => none
    | .sameIp => if workerId = 2 then some ⟨.destination1, .port2⟩ else none
    | .several =>
      if workerId = 2 then some ⟨.destination2, .port⟩
      else if workerId = 3 then some ⟨.destination3, .port⟩
      else if workerId = 4 then some ⟨.destination4, .port⟩
      else if workerId = 5 then some ⟨.destination5, .port⟩
      else none

/-- Where acknowledgements are sent; `receive_ack_end.py` is bound to it. -/
def ackAddress : Address := ⟨.master, .port⟩

/-- `cheetah_control_message_offload_query`. -/
def offloadQuery (nodes : Nodes) (queryType : List Byte) : List Datagram :=
  (offloadAddresses nodes).map fun dest => ⟨dest, transmitted queryType⟩

/-- `cheetah_control_message_send_ack`. -/
def sendAck : Datagram := ⟨ackAddress, transmitted messageAck⟩

/-! ### Who is sent what -/

section Links
variable {nodes : Nodes} {workerId workerId' : Int} {a : Address}

/-- The ids that wait are 1 to the number of addresses, each at its own place in the list
of addresses a query is sent to. -/
theorem awaitAddress_iff : awaitAddress nodes workerId = some a ↔
    1 ≤ workerId ∧ (offloadAddresses nodes)[(workerId - 1).toNat]? = some a := by
  by_cases h₁ : workerId = 1
  · subst h₁
    cases nodes <;> simp [awaitAddress, offloadAddresses]
  by_cases h₂ : workerId = 2
  · subst h₂
    cases nodes <;> simp [awaitAddress, offloadAddresses]
  by_cases h₃ : workerId = 3
  · subst h₃
    cases nodes <;> simp [awaitAddress, offloadAddresses]
  by_cases h₄ : workerId = 4
  · subst h₄
    cases nodes <;> simp [awaitAddress, offloadAddresses]
  by_cases h₅ : workerId = 5
  · subst h₅
    cases nodes <;> simp [awaitAddress, offloadAddresses]
  -- any other id is below 1 or behind the end of the list
  have hnone : awaitAddress nodes workerId = none := by
    cases nodes <;> simp [awaitAddress, h₁, h₂, h₃, h₄, h₅]
  have hlen : (offloadAddresses nodes).length ≤ 5 := by cases nodes <;> decide
  rw [hnone]
  refine iff_of_false nofun fun hboth => ?_
  obtain ⟨hpos, hat⟩ := hboth
  obtain ⟨hlt, _⟩ := List.getElem?_eq_some_iff.mp hat
  omega

theorem nodup_offloadAddresses (nodes : Nodes) : (offloadAddresses nodes).Nodup := by
  cases nodes <;> decide

/-- An address that is awaited is sent the query. -/
theorem mem_offloadAddresses (h : awaitAddress nodes workerId = some a) : a ∈ offloadAddresses nodes :=
  List.mem_of_getElem? (awaitAddress_iff.mp h).2

/-- No two ids wait at one address. -/
theorem awaitAddress_inj (h : awaitAddress nodes workerId = some a)
    (h' : awaitAddress nodes workerId' = some a) : workerId = workerId' := by
  obtain ⟨hpos, hat⟩ := awaitAddress_iff.mp h
  obtain ⟨hpos', hat'⟩ := awaitAddress_iff.mp h'
  obtain ⟨hlt, hget⟩ := List.getElem?_eq_some_iff.mp hat
  obtain ⟨hlt', hget'⟩ := List.getElem?_eq_some_iff.mp hat'
  have hsame := (List.Nodup.getElem_inj_iff (nodup_offloadAddresses nodes)).mp (hget.trans hget'.symm)
  omega

/-- No query is sent where acknowledgements go. -/
theorem ackAddress_not_mem (nodes : Nodes) : ackAddress ∉ offloadAddresses nodes := by
  cases nodes <;> decide

/-- Nobody waits for one there. -/
theorem awaitAddress_ne_ack (h : awaitAddress nodes workerId = some a) : a ≠ ackAddress :=
  fun heq => ackAddress_not_mem nodes (heq ▸ mem_offloadAddresses h)

theorem dest_offloadQuery {queryType : List Byte} {datagram : Datagram}
    (h : datagram ∈ offloadQuery nodes queryType) : datagram.dest ≠ ackAddress := by
  obtain ⟨dest, hdest, rfl⟩ := List.mem_map.mp h
  exact fun heq => ackAddress_not_mem nodes (heq ▸ hdest)

end Links
end Cheetah.Host.ControlMessage

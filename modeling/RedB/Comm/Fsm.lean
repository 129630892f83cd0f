import Mathlib.Data.List.Basic
import Mathlib.Data.List.Range
import Mathlib.Logic.Function.Basic

/-!
# Connections

A connection has one buffer for what it sends and what it receives. The first byte of a message
is its opcode, the second its type. What is done with a message depends on the opcode that has
been sent last.

What the other side has sent and this side has not received yet is in `inbox`. The other side is
a function of what it receives: `peer` gives what it sends then.
-/

namespace RedB.Comm

/-- `red::comm::BUFFER_SZ` -/
def BUFFER_SZ : ℕ := 1460

/-! ### Opcodes -/

def OP_NULL : ℕ := 0

def OP_TERM_SYN : ℕ := 1

def OP_TERM_ACK : ℕ := 2

/-- From here on, what a client sends. -/
def OP_RSLT_ACK : ℕ := 3

def OP_CONN_SYN : ℕ := 4

def OP_AUTH_SYN : ℕ := 5

def OP_STMT_SYN : ℕ := 6

/-- From here on, what a server sends. -/
def OP_RSLT_SYN : ℕ := 3

def OP_RSLT_FIN : ℕ := 4

def OP_CONN_ACK : ℕ := 5

def OP_CONN_ERR : ℕ := 6

def OP_AUTH_ACK : ℕ := 7

def OP_AUTH_ERR : ℕ := 8

def OP_STMT_ERR : ℕ := 9

def TYPE_TXT : ℕ := 0

def TYPE_ENC : ℕ := 1

def OPCODE_SZ : ℕ := 2

def OPCODE_POS : ℕ := 0

def TYPE_POS : ℕ := 1

/-! ### The table -/

/-- What is done with a message. -/
inductive Handler where
  | nop
  | rcvd
deriving DecidableEq, Repr

open Handler

/-- `fsm::make_srv_fsm`: the rows are for what has been sent last, the columns for what has been
received. -/
def srvFsm : List (List Handler) :=
  [[nop, nop, nop, nop, rcvd, nop, nop],
    [nop, nop, rcvd, nop, nop, nop, nop],
    [nop, nop, nop, nop, nop, nop, nop],
    [nop, rcvd, nop, rcvd, nop, nop, nop],
    [nop, rcvd, nop, nop, nop, nop, rcvd],
    [nop, rcvd, nop, nop, nop, rcvd, nop],
    [nop, rcvd, nop, nop, nop, nop, nop],
    [nop, rcvd, nop, nop, nop, nop, rcvd],
    [nop, rcvd, nop, nop, nop, nop, nop],
    [nop, rcvd, nop, nop, nop, nop, rcvd]]

/-- `fsm::make_cli_fsm` -/
def cliFsm : List (List Handler) :=
  [[nop, rcvd, nop, nop, nop, nop, nop, nop, nop, nop],
    [nop, nop, rcvd, nop, nop, nop, nop, nop, nop, nop],
    [nop, nop, nop, nop, nop, nop, nop, nop, nop, nop],
    [nop, rcvd, nop, rcvd, rcvd, nop, nop, nop, nop, nop],
    [nop, rcvd, nop, nop, nop, rcvd, nop, nop, nop, nop],
    [nop, rcvd, nop, nop, nop, nop, nop, rcvd, nop, nop],
    [nop, rcvd, nop, rcvd, rcvd, nop, nop, nop, nop, rcvd]]

/-- `m_oprcvd_max` -/
def oprcvdMax (fsm : List (List Handler)) : ℕ := (fsm.getD 0 []).length - 1

/-- The loop's choice: a message that is out of the table's columns is for `nop`. A row out of
the table would be read beyond it. -/
def dispatch (fsm : List (List Handler)) (opsent oprcvd : ℕ) : Handler :=
  if oprcvd > oprcvdMax fsm then nop else (fsm.getD opsent []).getD oprcvd nop

/-! ### Buffers -/

/-- A message as it is sent. -/
abbrev Msg := List UInt8

/-- The opcode of a message. -/
def opcodeOf (m : Msg) : ℕ := (m.getD OPCODE_POS 0).toNat

/-- What a message carries. -/
def payload (m : Msg) : List UInt8 := m.drop OPCODE_SZ

/-- `red::comm::fsm`, with its connection. -/
structure Fsm where
  isServer : Bool
  /-- `m_buffer` -/
  buffer : ℕ → UInt8
  /-- `m_size` -/
  size : ℕ
  /-- `m_opsent` -/
  opsent : ℕ
  /-- `m_loop` -/
  loop : Bool
  /-- Whether `m_flush_cb` is the callback of a `vm`. -/
  flushCb : Bool
  inbox : List Msg
  sent : List Msg

namespace Fsm

variable (s : Fsm)

/-- A new connection. The buffer has not been written. -/
def new (isServer : Bool) (buffer : ℕ → UInt8) (inbox : List Msg) : Fsm :=
  { isServer, buffer, size := 0, opsent := OP_NULL, loop := true, flushCb := false, inbox, sent := [] }

/-- What is in the buffer. -/
def contents : Msg := (List.range s.size).map s.buffer

def getOpcode : ℕ := (s.buffer OPCODE_POS).toNat

def getType : ℕ := (s.buffer TYPE_POS).toNat

def remaining : ℕ := BUFFER_SZ - s.size

/-- The bytes from `begin` to `end`. -/
def data : List UInt8 := payload s.contents

def setOpcode (opcode : ℕ) : Fsm := { s with buffer := Function.update s.buffer OPCODE_POS (UInt8.ofNat opcode) }

def setType (type : ℕ) : Fsm := { s with buffer := Function.update s.buffer TYPE_POS (UInt8.ofNat type) }

/-- `sndrcv::reset` -/
def reset : Fsm := { s with size := OPCODE_SZ }

/-- `sndrcv::reset`, with an opcode. -/
def resetOp (opcode : ℕ) : Fsm := s.reset.setOpcode opcode

/-- `sndrcv::reset`, with an opcode and a type. -/
def resetType (opcode type : ℕ) : Fsm := (s.resetOp opcode).setType type

/-- `fsm::cont` -/
def cont : Fsm := { s with loop := true }

/-- `fsm::term` -/
def term : Fsm := { s with loop := false }

/-- `fsm::set_flush_cb` -/
def setFlushCb (cb : Bool) : Fsm := { s with flushCb := cb }

/-- One turn of the loop of `fsm::put`. -/
def putByte (b : UInt8) : Fsm := { s with buffer := Function.update s.buffer s.size b, size := s.size + 1 }

/-- `conn::read`: the next message, as far as it fits. Nothing is left to read when the other side has closed. -/
def recv : Fsm :=
  match s.inbox with
  | [] => { s with size := 0 }
  | m :: ms =>
    let part := m.take BUFFER_SZ
    { s with
      buffer := fun i => part.getD i (s.buffer i)
      size := part.length
      inbox := if m.length ≤ BUFFER_SZ then ms else m.drop BUFFER_SZ :: ms }

/-- `sndrcv::send` -/
def send (peer : Msg → List Msg) : Fsm :=
  { s with opsent := s.getOpcode, sent := s.sent ++ [s.contents], inbox := s.inbox ++ peer s.contents }

end Fsm

end RedB.Comm

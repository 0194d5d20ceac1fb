import CodeTrail.Hex.Octets

/-!
# Opcodes of the machine

An opcode is a byte. `entries` lists every byte with an assigned instruction: its mnemonic, the
number of immediate bytes behind it and how many stack items it takes and leaves. `entry?` looks a
byte up and `named?` a mnemonic. `mnemonic` is what a listing shows, the byte itself where nothing
is assigned, and `ofMnemonic?` reads both forms back.
-/

set_option autoImplicit false
set_option relaxedAutoImplicit false

namespace CodeTrail

/-- An opcode byte, assigned or not. -/
structure Opcode where
  byte : UInt8
  deriving DecidableEq, Repr

namespace Opcode

/-- What is known about an assigned opcode. -/
structure Entry where
  byte : UInt8
  mnemonic : String
  immediateSize : Nat
  stackInputs : UInt8
  stackOutputs : UInt8
  deriving DecidableEq, Repr

/-- The instructions outside the numbered families. -/
def singleEntries : List Entry :=
  [⟨0x00, "stop", 0, 0, 0⟩, ⟨0x01, "add", 0, 2, 1⟩, ⟨0x02, "mul", 0, 2, 1⟩, ⟨0x03, "sub", 0, 2, 1⟩,
    ⟨0x04, "div", 0, 2, 1⟩, ⟨0x05, "sdiv", 0, 2, 1⟩, ⟨0x06, "mod", 0, 2, 1⟩,
    ⟨0x07, "smod", 0, 2, 1⟩, ⟨0x08, "addmod", 0, 3, 1⟩, ⟨0x09, "mulmod", 0, 3, 1⟩,
    ⟨0x0a, "exp", 0, 2, 1⟩, ⟨0x0b, "signextend", 0, 2, 1⟩, ⟨0x10, "lt", 0, 2, 1⟩,
    ⟨0x11, "gt", 0, 2, 1⟩, ⟨0x12, "slt", 0, 2, 1⟩, ⟨0x13, "sgt", 0, 2, 1⟩, ⟨0x14, "eq", 0, 2, 1⟩,
    ⟨0x15, "iszero", 0, 1, 1⟩, ⟨0x16, "and", 0, 2, 1⟩, ⟨0x17, "or", 0, 2, 1⟩,
    ⟨0x18, "xor", 0, 2, 1⟩, ⟨0x19, "not", 0, 1, 1⟩, ⟨0x1a, "byte", 0, 2, 1⟩,
    ⟨0x1b, "shl", 0, 2, 1⟩, ⟨0x1c, "shr", 0, 2, 1⟩, ⟨0x1d, "sar", 0, 2, 1⟩,
    ⟨0x20, "keccak256", 0, 2, 1⟩, ⟨0x30, "address", 0, 0, 1⟩, ⟨0x31, "balance", 0, 1, 1⟩,
    ⟨0x32, "origin", 0, 0, 1⟩, ⟨0x33, "caller", 0, 0, 1⟩, ⟨0x34, "callvalue", 0, 0, 1⟩,
    ⟨0x35, "calldataload", 0, 1, 1⟩, ⟨0x36, "calldatasize", 0, 0, 1⟩,
    ⟨0x37, "calldatacopy", 0, 3, 0⟩, ⟨0x38, "codesize", 0, 0, 1⟩, ⟨0x39, "codecopy", 0, 3, 0⟩,
    ⟨0x3a, "gasprice", 0, 0, 1⟩, ⟨0x3b, "extcodesize", 0, 1, 1⟩, ⟨0x3c, "extcodecopy", 0, 4, 0⟩,
    ⟨0x3d, "returndatasize", 0, 0, 1⟩, ⟨0x3e, "returndatacopy", 0, 3, 0⟩,
    ⟨0x3f, "extcodehash", 0, 1, 1⟩, ⟨0x40, "blockhash", 0, 1, 1⟩, ⟨0x41, "coinbase", 0, 0, 1⟩,
    ⟨0x42, "timestamp", 0, 0, 1⟩, ⟨0x43, "number", 0, 0, 1⟩, ⟨0x44, "prevrandao", 0, 0, 1⟩,
    ⟨0x45, "gaslimit", 0, 0, 1⟩, ⟨0x46, "chainid", 0, 0, 1⟩, ⟨0x47, "selfbalance", 0, 0, 1⟩,
    ⟨0x48, "basefee", 0, 0, 1⟩, ⟨0x49, "blobhash", 0, 1, 1⟩, ⟨0x4a, "blobbasefee", 0, 0, 1⟩,
    ⟨0x50, "pop", 0, 1, 0⟩, ⟨0x51, "mload", 0, 1, 1⟩, ⟨0x52, "mstore", 0, 2, 0⟩,
    ⟨0x53, "mstore8", 0, 2, 0⟩, ⟨0x54, "sload", 0, 1, 1⟩, ⟨0x55, "sstore", 0, 2, 0⟩,
    ⟨0x56, "jump", 0, 1, 0⟩, ⟨0x57, "jumpi", 0, 2, 0⟩, ⟨0x58, "pc", 0, 0, 1⟩,
    ⟨0x59, "msize", 0, 0, 1⟩, ⟨0x5a, "gas", 0, 0, 1⟩, ⟨0x5b, "jumpdest", 0, 0, 0⟩,
    ⟨0x5c, "tload", 0, 1, 1⟩, ⟨0x5d, "tstore", 0, 2, 0⟩, ⟨0x5e, "mcopy", 0, 3, 0⟩,
    ⟨0x5f, "push0", 0, 0, 1⟩, ⟨0xf0, "create", 0, 3, 1⟩, ⟨0xf1, "call", 0, 7, 1⟩,
    ⟨0xf2, "callcode", 0, 7, 1⟩, ⟨0xf3, "return", 0, 2, 0⟩, ⟨0xf4, "delegatecall", 0, 6, 1⟩,
    ⟨0xf5, "create2", 0, 4, 1⟩, ⟨0xfa, "staticcall", 0, 6, 1⟩, ⟨0xfd, "revert", 0, 2, 0⟩,
    ⟨0xfe, "invalid", 0, 0, 0⟩, ⟨0xff, "selfdestruct", 0, 1, 0⟩]

/-- The instructions that push the one to thirty-two bytes behind them. -/
def pushEntries : List Entry :=
  (List.range 32).map fun index ↦
    ⟨0x60 + UInt8.ofNat index, "push" ++ toString (index + 1), index + 1, 0, 1⟩

/-- The instructions that copy one of the sixteen topmost items. -/
def dupEntries : List Entry :=
  (List.range 16).map fun index ↦
    ⟨0x80 + UInt8.ofNat index, "dup" ++ toString (index + 1), 0, UInt8.ofNat (index + 1),
      UInt8.ofNat (index + 2)⟩

/-- The instructions that swap the top with one of the sixteen items below it. -/
def swapEntries : List Entry :=
  (List.range 16).map fun index ↦
    ⟨0x90 + UInt8.ofNat index, "swap" ++ toString (index + 1), 0, UInt8.ofNat (index + 2),
      UInt8.ofNat (index + 2)⟩

/-- The instructions that log a region of memory under zero to four topics. -/
def logEntries : List Entry :=
  (List.range 5).map fun index ↦
    ⟨0xa0 + UInt8.ofNat index, "log" ++ toString index, 0, UInt8.ofNat (index + 2), 0⟩

/-- Every assigned opcode. -/
def entries : List Entry :=
  singleEntries ++ pushEntries ++ dupEntries ++ swapEntries ++ logEntries

/-- The entry of each byte. -/
def table : Vector (Option Entry) 256 :=
  Vector.ofFn fun index ↦ entries.find? (·.byte.toNat == index.val)

/-- What is known about an opcode, if it is assigned. -/
def entry? (opcode : Opcode) : Option Entry :=
  table.get (Fin.ofNat 256 opcode.byte.toNat)

theorem entry?_eq_find? (opcode : Opcode) :
    opcode.entry? = entries.find? (·.byte.toNat == opcode.byte.toNat) := by
  have h : (Fin.ofNat 256 opcode.byte.toNat).val = opcode.byte.toNat :=
    Nat.mod_eq_of_lt opcode.byte.toNat_lt
  change table[(Fin.ofNat 256 opcode.byte.toNat).val] = _
  simp only [table, Vector.getElem_ofFn, h]

/-- The number of immediate bytes behind an opcode. -/
def immediateSize (opcode : Opcode) : Nat :=
  match opcode.entry? with
  | some entry => entry.immediateSize
  | none => 0

/-- The name of an opcode in a listing: its mnemonic, or the byte where nothing is assigned. -/
def mnemonic (opcode : Opcode) : String :=
  match opcode.entry? with
  | some entry => entry.mnemonic
  | none => Hex.marked [opcode.byte]

/-- The assigned opcode with a given mnemonic. -/
def named? (mnemonic : String) : Option Opcode :=
  (entries.find? (·.mnemonic == mnemonic)).map fun entry ↦ ⟨entry.byte⟩

/-- Every opcode, in increasing order. -/
def all : List Opcode :=
  (List.range 256).map fun index ↦ ⟨UInt8.ofNat index⟩

/-- The opcode that a listing shows under a given name. -/
def ofMnemonic? (name : String) : Option Opcode :=
  all.find? (·.mnemonic == name)

/-- Halts. -/
def stop : Opcode := ⟨0x00⟩

/-- Marks a place where a jump may land. -/
def jumpdest : Opcode := ⟨0x5b⟩

/-- Pushes the byte behind it. -/
def push1 : Opcode := ⟨0x60⟩

/-- Halts and hands a region of memory back. -/
def return_ : Opcode := ⟨0xf3⟩

/-- Halts with a failure. -/
def invalid : Opcode := ⟨0xfe⟩

end Opcode

end CodeTrail

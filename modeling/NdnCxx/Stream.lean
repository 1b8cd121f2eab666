import NdnCxx.Component

namespace NdnCxx

-- `seekg` clears `eofbit` before anything else only since C++11. The build fixes
-- no standard, so what is said of the parser is said for both.
inductive Standard where
  | cxx98
  | cxx11
  deriving DecidableEq, Repr

structure InputIterator where
  past : Blob
  rest : Blob
  eofbit : Bool
  failbit : Bool
  deriving DecidableEq, Repr

namespace InputIterator

def cursor (past rest : Blob) : InputIterator := ⟨past,rest,false,false⟩

def openOn (bytes : Blob) : InputIterator := .cursor [] bytes

def good (s : InputIterator) : Bool := !s.eofbit && !s.failbit

-- `get ()` at the end of the input sets both bits and its `EOF` casts to 0xFF; on
-- a stream that is not good the sentry only sets `failbit`.
def readU8 (s : InputIterator) : UInt8 × InputIterator :=
  if s.good then
    match s.rest with
    | [] => (0xFF,{s with eofbit := true, failbit := true})
    | byte :: rest => (byte,{s with past := byte :: s.past, rest := rest})
  else (0xFF,{s with failbit := true})

def isEnd (s : InputIterator) : Bool := s.eofbit

def prev (std : Standard) (s : InputIterator) : InputIterator :=
  let cleared := match std with
    | .cxx98 => s
    | .cxx11 => {s with eofbit := false}
  if cleared.failbit then cleared
  else match cleared.past with
    | [] => {cleared with failbit := true}
    | byte :: past => {cleared with past := past, rest := byte :: cleared.rest}

def peekU8 (std : Standard) (s : InputIterator) : UInt8 × InputIterator :=
  (s.readU8.1,s.readU8.2.prev std)

-- `peek ()` at the end of the input sets `eofbit` alone.
def peek (s : InputIterator) : UInt8 × InputIterator :=
  if s.good then
    match s.rest with
    | [] => (0xFF,{s with eofbit := true})
    | byte :: _ => (byte,s)
  else (0xFF,{s with failbit := true})

-- `read ()` of a block hands over what there is of it.
def read (s : InputIterator) (n : Nat) : Blob × InputIterator :=
  if s.good then
    if n ≤ s.rest.length then (s.rest.take n,{s with past := (s.rest.take n).reverse ++ s.past, rest := s.rest.drop n})
    else (s.rest,⟨s.rest.reverse ++ s.past,[],true,true⟩)
  else ([],{s with failbit := true})

@[simp] theorem cursor_isEnd (past rest : Blob) : (InputIterator.cursor past rest).isEnd = false := rfl

@[simp] theorem readU8_cons (past rest : Blob) (byte : UInt8) :
    (InputIterator.cursor past (byte :: rest)).readU8 = (byte,.cursor (byte :: past) rest) := rfl

@[simp] theorem readU8_nil (past : Blob) :
    (InputIterator.cursor past []).readU8 = (0xFF,⟨past,[],true,true⟩) := rfl

@[simp] theorem peekU8_cons (std : Standard) (past rest : Blob) (byte : UInt8) :
    (InputIterator.cursor past (byte :: rest)).peekU8 std = (byte,.cursor past (byte :: rest)) := by
  cases std <;> rfl

-- Peeking past the end leaves a stream that never reads again; only `eofbit`
-- depends on the standard.
@[simp] theorem peekU8_nil (std : Standard) (past : Blob) :
    (InputIterator.cursor past []).peekU8 std = (0xFF,⟨past,[],decide (std = .cxx98),true⟩) := by
  cases std <;> rfl

end InputIterator

-- `OutputIterator::Write` takes its length as `uint32_t`.
def write (bytes : Blob) (size : Nat) : Blob := bytes.take (size % 2^32)

theorem write_all {bytes : Blob} (short : bytes.length < 2^32) : write bytes bytes.length = bytes := by
  rw [write,Nat.mod_eq_of_lt short,List.take_length]

end NdnCxx

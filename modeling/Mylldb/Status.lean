import Mylldb.Exec

namespace Mylldb

inductive Code where
  | kNotFound
  | kCorruption
  | kNotSupported
  | kInvalidArgument
  | kIOError
  deriving DecidableEq, Repr

-- `ok` is the null `state_`; every other status owns a code and a message.
inductive Status where
  | ok
  | failed (code : Code) (message : String)
  deriving DecidableEq, Repr

namespace Status

-- The constructor joins two messages, when there is a second one.
def make (code : Code) (msg msg2 : String) : Status :=
  .failed code (if msg2.length ≠ 0 then msg ++ ": " ++ msg2 else msg)

def notFound (msg msg2 : String) : Status := make .kNotFound msg msg2

def corruption (msg msg2 : String) : Status := make .kCorruption msg msg2

def invalidArgument (msg msg2 : String) : Status := make .kInvalidArgument msg msg2

def isOk (s : Status) : Bool := s = .ok

def isNotFound : Status → Bool
  | .failed .kNotFound _ => true
  | _ => false

def isCorruption : Status → Bool
  | .failed .kCorruption _ => true
  | _ => false

end Status

end Mylldb

import ShortCircuit.Message

set_option autoImplicit false

/-!
# What crosses the boundary of the backend

The backend calls the application's callbacks, the message hooks and libuv. `Effect`
lists these calls in the order in which they are made; a property of a run is a
property of such a list.
-/
namespace ShortCircuit.Boundary

inductive Proto where
  | noset
  | pipe
  | tcp
  deriving DecidableEq, Repr

inductive ScBackend where
  | notset
  | libuv
  deriving DecidableEq, Repr

/-- The blocks that the library takes from `malloc`. -/
inductive BlockKind where
  | socket
  | backend
  | uri
  | uriStr
  deriving DecidableEq, Repr

/-- What a null pointer that is followed should have pointed to. -/
inductive Pointee where
  | message
  | socket
  | backend
  | string
  deriving DecidableEq, Repr

/-- The life of the handle in `union stream`, as libuv sees it. -/
inductive HandlePhase where
  | uninit
  | active
  | closing
  | closed
  deriving DecidableEq, Repr

inductive Region where
  | head
  | body
  deriving DecidableEq, Repr

structure UvBuf where
  region : Region
  base : ℕ
  len : ℕ
  deriving DecidableEq, Repr

/-- What `on_recv` can read of a message: its size and that many bytes of its data. -/
structure Delivery where
  size : ℕ
  data : List UInt8
  deriving DecidableEq, Repr

inductive Effect where
  | msgAlloc (id size : ℕ)
  | msgFree (id : Option ℕ)
  | offer (buf : UvBuf) (cap : ℕ)
  | onRecv (msg : Option Delivery) (errcode : Int)
  | onConnect (errcode : Int)
  | onConnection (errcode : Int)
  | onAccept (errcode : Int)
  | onSend (errcode : Int)
  | onClose
  | uvInit (proto : Proto) (before : HandlePhase)
  | uvConnect (target : List UInt8)
  | uvBind (target : List UInt8)
  | uvListen (backlog : Int)
  | uvAccept
  | uvReadStart
  | uvWrite (owned : Bool) (bytes : List UInt8) (result : Int)
  | written (bytes : List UInt8)
  | uvClose (before : HandlePhase)
  | uriNew (id : ℕ)
  | uriDel (id : ℕ)
  deriving DecidableEq, Repr

namespace Effect

def recv? : Effect → Option (Option Delivery × Int)
  | .onRecv msg errcode => some (msg, errcode)
  | _ => none

def offer? : Effect → Option (UvBuf × ℕ)
  | .offer buf cap => some (buf, cap)
  | _ => none

def alloc? : Effect → Option ℕ
  | .msgAlloc id _ => some id
  | _ => none

def free? : Effect → Option ℕ
  | .msgFree id => id
  | _ => none

inductive Family where
  | message
  | write
  | handle
  | other
  deriving DecidableEq, Repr

def family : Effect → Family
  | .msgAlloc _ _ | .msgFree _ | .offer _ _ | .onRecv _ _ => .message
  | .uvWrite _ _ _ | .written _ | .onSend _ => .write
  | .uvInit _ _ | .uvClose _ | .onClose => .handle
  | _ => .other

end Effect

def onRecvs (effects : List Effect) : List (Option Delivery × Int) := effects.filterMap Effect.recv?

def offers (effects : List Effect) : List (UvBuf × ℕ) := effects.filterMap Effect.offer?

@[simp] theorem onRecvs_nil : onRecvs [] = [] := rfl

theorem onRecvs_append (xs ys : List Effect) : onRecvs (xs ++ ys) = onRecvs xs ++ onRecvs ys :=
  List.filterMap_append

end ShortCircuit.Boundary

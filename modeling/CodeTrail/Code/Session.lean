import CodeTrail.Code.Store

/-!
# Sessions with a store

In a session a store is asked one thing after the other, and told new code now and then. Addresses
come as texts: one that is no address is refused and leaves the store as it is. `Store.answer` is
one turn of a session, `Store.session` all of them with the store after each.
-/

set_option autoImplicit false
set_option relaxedAutoImplicit false

namespace CodeTrail.Code

/-- What is to be done about an address. -/
inductive Action where
  | insert (code : String)
  | fetch
  | tryFingerprint
  | fingerprint
  deriving DecidableEq, Repr

/-- A turn of a session: an address as text, and what is to be done about it. -/
structure Request where
  action : Action
  address : String
  deriving DecidableEq, Repr

/-- The answer to a request. -/
inductive Response where
  /-- The text is no address. -/
  | noAddress
  | done
  | code (text : String)
  | outcome (outcome : Except FetchError Digest)
  | fingerprint (digest : Option Digest)

namespace Store

/-- Does what is asked about an address; answers are waited for within a limit of milliseconds. -/
def perform (limit : UInt64) (store : Store) (address : Address) : Action → Response × Store
  | .insert code => (.done, store.insert address code)
  | .fetch => (.code (store.fetch address), store)
  | .tryFingerprint => (.outcome (Code.tryFingerprint store.source limit address), store)
  | .fingerprint => (.fingerprint (fingerprint? store.source limit address), store)

/-- Answers a request. -/
def answer (limit : UInt64) (store : Store) (request : Request) : Response × Store :=
  match Octets.read? 20 request.address with
  | some address => store.perform limit address request.action
  | none => (.noAddress, store)

/-- The answers to requests in order, each with the store after it. -/
def session (limit : UInt64) (store : Store) : List Request → List (Response × Store)
  | [] => []
  | request :: rest =>
    let turn := store.answer limit request
    turn :: session limit turn.2 rest

end Store

end CodeTrail.Code

import MumbleBot.Base.HashMap

/-!
# `session.rs`: who is there

The session of the client itself and the map of the remote users, by their session. The map has
no order of its own, so a session is over any map with the interface of a hash map.

## Main definitions

* `Session` — the session state
* `Session.initial` — the state `run` starts with
-/

namespace MumbleBot

/-- `session::Local`. -/
structure Local where
  id : UInt64
  deriving DecidableEq, Repr

/-- `session::Remote`. -/
structure Remote where
  id : UInt64
  deriving DecidableEq, Repr

/-- `session::Session`, over any map of the remote users. -/
structure Session (M : Type) where
  local_ : Local
  remotes : M

/-- The session `run` starts with. -/
def Session.initial [HashMap M UInt64 Remote] : Session M := ⟨⟨0⟩, HashMap.new⟩

end MumbleBot

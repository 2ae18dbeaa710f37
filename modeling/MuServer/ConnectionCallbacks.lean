import MuServer.CallbackShutdown
import MuServer.ConnectionClose
import MuServer.TcpServer

/-!
# A connection that only its own callbacks call

The calls come from the callbacks of the connection itself and none of them is the
high-water callback. Then no frame that closes the connection or watches its
descriptor waits below another one, so that nothing happens behind the close but
the removal of the channel.
-/

set_option autoImplicit false

namespace MuServer

variable {T : Type}

def Frame.stirs : Frame → Bool
  | .handleRead => true
  | .handleClose => true
  | .enableWriting => true
  | .shutdownStore => true
  | .destroyStore => true
  | _ => false

def Settled (stack : List Frame) : Prop := ∀ frame ∈ stack, frame.stirs = false

def Revents.plain (revents : Revents) : Bool := !(revents.hup && revents.pri) || revents.rd

/-- The steps of the loop thread in a server whose connections are called from
their own callbacks only and have no high-water callback: that one may close the
connection in the middle of `doWriting`, which then watches the closed channel. -/
def Act.fromCallback : Act T → Bool
  | .poll revents => revents.plain
  | .handleEvent => true
  | .doPendingFunctor => true
  | .request _ => true
  | .userReturns => true
  | .exec _ => true
  | _ => false

namespace EpollPoller

end EpollPoller

namespace TcpConnection

variable [DecidableEq T]

end TcpConnection
end MuServer

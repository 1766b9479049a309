/-
Hucx.Tcp.Replace — an internal TCP endpoint gives its connection to a user
endpoint (`uct_tcp_ep_connect`, `uct_tcp_ep_replace_ep` in `uct/tcp/tcp_ep.c`).

When the user creates an endpoint to a peer that has opened a connection,
`uct_tcp_ep_connect` moves socket, contexts and some flags of the internal endpoint to the
new one; the receive context is moved only if it holds bytes that have not been handled.
If it does, a call of `uct_tcp_ep_progress_data_rx` is scheduled for the user endpoint. The
worker makes it some time later, so calls that events ask for may come first.

The user may create the endpoint between two calls of the progress functions or from an
active message handler. In the second case the loop of `uct_tcp_ep_progress_am_rx` goes on
behind the handler call: it is left if the receive context has been moved, and otherwise
continues on the internal endpoint.

What the user endpoint can send (its own connection is not established for a while) is an
input of its run, and need not be what the internal endpoint could have sent.
-/
import Hucx.Tcp.Rx

namespace Hucx.Tcp

variable {iface : Iface}

/-! ## Replacing an endpoint -/

def Ctx.move (toCtx fromCtx : Ctx iface) : Option (Ctx iface × Ctx iface) :=
  if fromCtx.offset ≤ fromCtx.length then
    if fromCtx.offset < fromCtx.length then
      some (fromCtx, { buf := none, offset := 0, length := 0, putSn := 0 })
    else some (toCtx, fromCtx)
  else none

namespace Ep

/-- `uct_tcp_ep_replace_ep`, on the receive side: the two endpoints after it, and whether a call
for the first one is scheduled. What belongs to the connection comes with its socket. -/
def replaceEp (toEp fromEp : Ep iface) : Option (Ep iface × Ep iface × Bool) := do
  let (toRx, fromRx) ← toEp.rx.move fromEp.rx
  let toEp := { fromEp with
    rx := toRx
    putRx := toEp.putRx || fromEp.putRx
    sendingAck := toEp.sendingAck || fromEp.sendingAck }
  let scheduled ← toEp.bufNeedProgress
  some (toEp, { fromEp with rx := fromRx, sock := [] }, scheduled)

/-- `uct_tcp_ep_connect`, when it finds the internal endpoint. -/
def connect (fromEp : Ep iface) : Option (Ep iface × Ep iface × Bool) :=
  (Ep.init iface [] fromEp.mem).replaceEp fromEp

end Ep

/-! ## Where an endpoint can be replaced -/

namespace Ep

/-- The loop of `uct_tcp_ep_progress_am_rx` when it has called the active message
handler for the `k`-th time, counted from 0. -/
def atHandler (tx : Nat → Bool) : Nat → Nat → Ep iface → Option (Ep iface)
  | 0, _, _ => none
  | fuel + 1, k, ep => do
    let needProgress ← ep.bufNeedProgress
    if needProgress then
      let remaining := ep.rx.length - ep.rx.offset
      if remaining < AmHdr.size then none
      else
        let bytes ← ep.readBuf ep.rx.offset AmHdr.size
        let hdr := AmHdr.decode bytes
        if iface.rxSegSize - AmHdr.size < hdr.length then none
        else if remaining < AmHdr.size + hdr.length then none
        else
          let (ep, out) ← ep.handleMessage tx hdr
          if out then none
          else if hdr.amId < amIdMax then
            match k with
            | 0 => some ep
            | k + 1 => atHandler tx fuel k ep
          else atHandler tx fuel k ep
    else none

end Ep

/-! ## Transparency -/

end Hucx.Tcp

import MiniOb.Types

/-! # Connections

`Server::recv` and `Server::send`, and `SessionStage::callback_event`, against what `read` and `write` answer. -/

namespace MiniOb

def socketBufferSize : Nat := 8192

/-- `ConnectionContext`, with what has been written to its socket and the buffers that went to the session stage as
    events. It is deleted when it is closed. -/
structure ConnectionContext where
  buf : Bytes
  written : Bytes
  events : List Bytes
  closed : Bool
  deriving DecidableEq

/-- What a `read` meets: `EAGAIN`, another error, or the next bytes, of which it takes as many as it may. At the end of
    the stream there are none. -/
inductive ReadResult
  | again
  | failed
  | bytes (data : Bytes)
  deriving DecidableEq

namespace ConnectionContext

/-- The loop of `recv`: `buf`, `data_len` and `read_len` behind it; `none` is to wait. A `read` of no bytes returns
    0. -/
def recvLoop (results : List ReadResult) (buf : Bytes) (dataLen : Nat) : Option (Bytes × Nat × Int) :=
  if socketBufferSize - dataLen = 0 then some (buf, dataLen, 0) else
  match results with
  | [] => none
  | .again :: results => recvLoop results buf dataLen
  | .failed :: _ => some (buf, dataLen, -1)
  | .bytes data :: results =>
    let data := data.take (socketBufferSize - dataLen)
    let buf := buf.take dataLen ++ data ++ buf.drop (dataLen + data.length)
    if data.length = 0 then some (buf, dataLen, 0)
    else if data.length + dataLen > socketBufferSize then some (buf, dataLen + data.length, data.length)
    else
      match ((buf.drop dataLen).take data.length).findIdx? (· == 0) with
      | some i => some (buf, dataLen + (i + 1), data.length)
      | none => recvLoop results buf (dataLen + data.length)

/-- `recv`. -/
def recv (results : List ReadResult) (c : ConnectionContext) : Option ConnectionContext := do
  let (buf, dataLen, readLen) ← recvLoop results (List.replicate socketBufferSize 0) 0
  if dataLen > socketBufferSize then return { c with buf, closed := true }
  if readLen = 0 then return { c with buf, closed := true }
  if readLen < 0 then return { c with buf, closed := true }
  return { c with buf, events := c.events ++ [buf] }

/-- The loop of `send` over the results of its calls of `write`, which take no more than they are given; `none` is an
    error. -/
def sendLoop (data : Bytes) : List (Option Nat) → Nat → ConnectionContext → Int × ConnectionContext
  | [], _, c => (0, c)
  | write :: writes, wlen, c =>
    if wlen < data.length then
      match write with
      | none => (-7, { c with closed := true })
      | some len =>
        let piece := (data.drop wlen).take len
        sendLoop data writes (wlen + piece.length) { c with written := c.written ++ piece }
    else (0, c)

/-- `send`, with at most three calls of `write`; -7 is `-STATUS_FAILED_NETWORK`. -/
def send (writes : Fin 3 → Option Nat) (data : Bytes) (c : ConnectionContext) : Int × ConnectionContext :=
  if data.length = 0 then (0, c) else sendLoop data (List.ofFn writes) 0 c

/-- The response that `callback_event` sends. -/
def responseOf (response : Bytes) : Bytes := if response.length = 0 then [78, 111, 32, 100, 97, 116, 97, 10, 0]
    else response

/-- `callback_event`. The end of the response goes to the connection even if a failure has deleted it, which is
    `none`. -/
def callbackEvent (first second : Fin 3 → Option Nat) (response : Bytes) (c : ConnectionContext) :
    Option ConnectionContext :=
  let response := responseOf response
  let (rc, c) := send first response c
  if response.getLast? ≠ some 0 then
    if rc = 0 then some (send second [0] c).2 else none
  else some c

end ConnectionContext
end MiniOb

import FlpPrototype.Lib.Run
import FlpPrototype.PermFifo.Session
import FlpPrototype.Transport.Files
/-!
# Client — the thread that sends files

`TR_client_state_machine` of `transport_client.c`, and what its users call meanwhile.  The parts of the loop of
`STATE_CONNECTED` between which others come in are steps: the replies of the server, each turn of the loop that removes
acknowledged files, the choice of the next file, and one turn of filling and flushing the socket's buffer.  The socket
takes as many bytes as it likes; the connection may be lost before each reading and each writing.  A call under way has
the input queue's mutex from the first removal to the choice of the next file; here files are added also then.

With a permanent FIFO for messages the client is in message mode: its files are made of messages, and acknowledged files
are acknowledged there.  Without one they go to the output queue.
-/
namespace Flp
namespace Transport

/-! ## The state -/

/-- Where the state machine is: outside `STATE_CONNECTED`, or before a part of its loop. -/
inductive Stage where
  | notConnected
  | replies
  | removing
  | selecting
  | sending
  deriving DecidableEq

/-- `struct TR_buffer`; `stop` is the end of `value`. -/
structure TrBuffer where
  value : Bytes
  start : Nat
  deriving DecidableEq

def TrBuffer.rest (b : TrBuffer) : Bytes := b.value.drop b.start

/-- `struct _TR_client` and the variables of the state machine. -/
structure TrClient where
  stage : Stage
  clientName : CString
  proxyState : Int
  inputQueue : Fifo
  outputQueue : Fifo
  inputQueueMsg : Option Perm.Session
  serverShutdownRequest : Bool
  ackId : TrFileId
  currentFile : Option TrFile
  currentBlob : List Bytes
  currentFileIndex : Int
  sendBuf : TrBuffer
  fileTransfertInit : Bool
  fileTransfertDeinit : Bool
  /-- The handle the next file gets. -/
  allocated : Nat

/-- The id at the beginning, when nothing is known to be acknowledged. -/
def noneAcknowledged : TrFileId := ⟨none, 0, 0, 0⟩

namespace TrClient

/-- `TR_client_start`. -/
def start (queueLength : Nat) (clientName : CString) (proxyState : Int) (messages : Option Perm.Session) :
    TrClient where
  stage := .notConnected
  clientName
  proxyState
  inputQueue := .new queueLength
  outputQueue := .new queueLength
  inputQueueMsg := messages
  serverShutdownRequest := false
  ackId := noneAcknowledged
  currentFile := none
  currentBlob := []
  currentFileIndex := 0
  sendBuf := ⟨[], 0⟩
  fileTransfertInit := false
  fileTransfertDeinit := false
  allocated := 0

/-! ## Connections -/

/-- What is sent when the connection is opened; nothing to a proxy. -/
def iniLine (c : TrClient) : Bytes :=
  (ascii "INI ".toList ++ c.clientName.1 ++ ascii [' '] ++ printInt c.proxyState ++ [newline]).take (TR_BUFFER_SIZE - 1)

/-- `STATE_CONNECTED` is entered, the server being ready. -/
def connect (c : TrClient) : TrClient :=
  { c with
    stage := .replies
    currentFile := none
    currentBlob := []
    currentFileIndex := 0
    sendBuf := ⟨[], 0⟩
    fileTransfertInit := false
    fileTransfertDeinit := false }

/-! ## Replies -/

/-- The two numbers of an acknowledgement. -/
def parseAck (line : Bytes) : Option (Int × Int) :=
  if (ascii "ACK ".toList).isPrefixOf line then
    (scanInt (line.drop 4)).bind fun minId =>
      (scanInt minId.2).map fun majId => ((intOf minId.1).toInt, (intOf majId.1).toInt)
  else none

/-- A line the server has sent; one that is not understood is logged. -/
def reply (c : TrClient) (line : Bytes) : TrClient :=
  { c with
    ackId := match parseAck line with
      | some (minId, majId) => { c.ackId with minId, majId }
      | none                => c.ackId
    serverShutdownRequest := c.serverShutdownRequest || (ascii "CLOS".toList).isPrefixOf line }

/-! ## Acknowledged files -/

/-- What a turn of the removing loop finds. -/
inductive Turn where
  /-- The loop is left. -/
  | stop
  /-- The first file is taken out, and acknowledged in the permanent FIFO under a number. -/
  | acked (f : TrFile) (id : Nat) (c : TrClient)
  /-- The first file is moved to the output queue. -/
  | moved (f : TrFile) (c : TrClient)

/-- A turn of the loop. -/
def removeTurn (c : TrClient) : Turn :=
  match c.inputQueue.readIndex 0 with
  | none   => .stop
  | some f =>
    if c.currentFile.map TrFile.handle = some f.handle then .stop
    else if trFileIdCompare f.id c.ackId then .stop
    else
      let taken := { c with inputQueue := c.inputQueue.read.2, currentFileIndex := c.currentFileIndex - 1 }
      match c.inputQueueMsg with
      | some m =>
        let id := toUnsigned 64 f.id.minId
        .acked f id { taken with
          inputQueueMsg := some { m with fifo := (Perm.permFifoAck m.fifo id).2, acked := max m.acked id } }
      | none   =>
        if c.outputQueue.isFull then .stop
        else .moved f { taken with outputQueue := c.outputQueue.write f }

/-- The loop is left, and the index brought back. -/
def endRemoving (c : TrClient) : TrClient :=
  { c with stage := .selecting, currentFileIndex := if c.currentFileIndex < 0 then 0 else c.currentFileIndex }

/-! ## The next file -/

/-- A message is read from the permanent FIFO, without waiting. -/
def readMessage (e : Perm.Env) (m : Perm.Session) : Option (Option Perm.FifoItem × Perm.Session) :=
  (Perm.permFifoRead e m.fifo).map fun r =>
    if r.1 = 0 then
      (some r.2.1, { m with fifo := r.2.2, delivered := m.delivered ++ [r.2.1], lastRead := r.2.1.id })
    else (none, { m with fifo := r.2.2 })

/-- The file made of a message. -/
def messageFile (c : TrClient) (item : Perm.FifoItem) : TrFile where
  handle := c.allocated
  id := ⟨some c.clientName, 1, toSigned 32 item.id, 0⟩
  blobs := [(item.data.getD []).take item.size]
  size := toSigned 32 item.size

/-- The transmission of a file begins. -/
def beginFile (c : TrClient) (f : TrFile) : TrClient :=
  { c with
    currentFile := some f
    currentFileIndex := c.currentFileIndex + 1
    fileTransfertInit := false
    fileTransfertDeinit := true }

/-- What the choice of the next file has come to. -/
inductive Choice where
  /-- Nothing to begin. -/
  | nothing (c : TrClient)
  /-- A file of the queue. -/
  | begun (f : TrFile) (c : TrClient)
  /-- A file made of a message and put in the queue. -/
  | made (f : TrFile) (c : TrClient)
  /-- The line behind the file's data. -/
  | ended (c : TrClient)

/-- Nothing is in the buffer, and no file has data to send. -/
def dataDone (c : TrClient) : Prop := c.currentFile = none ∧ c.sendBuf.start = c.sendBuf.value.length

instance (c : TrClient) : Decidable c.dataDone := inferInstanceAs (Decidable (_ ∧ _))

/-- **The next file** to transmit. -/
def chooseFile (e : Perm.Env) (c : TrClient) : Option Choice :=
  if ¬c.dataDone then some (.nothing c)
  else if c.fileTransfertDeinit then
    some (.ended { c with fileTransfertDeinit := false, sendBuf := ⟨trailer, 0⟩ })
  else
    match c.inputQueue.readIndex c.currentFileIndex with
    | some f => some (.begun f (c.beginFile f))
    | none   =>
      match c.inputQueueMsg with
      | none   => some (.nothing c)
      | some m =>
        if c.inputQueue.isFull then some (.nothing c)
        else
          match readMessage e m with
          | none              => none
          | some (none, m)    => some (.nothing { c with inputQueueMsg := some m })
          | some (some item, m) =>
            let f := c.messageFile item
            some (.made f (beginFile { c with
              inputQueueMsg := some m
              inputQueue := c.inputQueue.write f
              allocated := c.allocated + 1 } f))

/-! ## The buffer -/

/-- An empty buffer is filled with the next piece of the file. -/
def fillBuffer (c : TrClient) : TrClient :=
  match c.currentFile with
  | none   => c
  | some f =>
    if c.sendBuf.start ≠ c.sendBuf.value.length then c
    else if c.fileTransfertInit = false then
      { c with sendBuf := ⟨f.header, 0⟩, currentBlob := f.blobs, fileTransfertInit := true }
    else
      match c.currentBlob with
      | []            => { c with currentFile := none }
      | blob :: blobs => { c with sendBuf := ⟨blob, 0⟩, currentBlob := blobs }

/-- `TR_buffer_send`: the socket takes at most `n` bytes. -/
def bufferSend (n : Nat) (c : TrClient) : Bytes × TrClient :=
  (c.sendBuf.rest.take n, { c with
    sendBuf := { c.sendBuf with start := c.sendBuf.start + (c.sendBuf.rest.take n).length } })

end TrClient

/-! ## The record -/

/-- A client with a record of what it has done. -/
structure Tracked where
  client : TrClient
  /-- What the socket has taken on this connection. -/
  wire : Bytes
  /-- The file the transmission of which has begun and not ended. -/
  sending : Option TrFile
  /-- The files sent completely on this connection. -/
  finished : List TrFile
  /-- The files sent completely, in order. -/
  sent : List TrFile
  /-- The files that were put in the input queue. -/
  queued : List TrFile
  /-- The files that were taken out of it. -/
  removed : List TrFile
  acknowledged : List TrFile
  /-- The numbers given to `permFIFO_ack`. -/
  permAcks : List Nat

/-- Whether a file has the two numbers of an acknowledgement. -/
def TrFile.Named (f : TrFile) (r : Int × Int) : Prop := f.id.minId = r.1 ∧ f.id.majId = r.2

instance (f : TrFile) (r : Int × Int) : Decidable (f.Named r) := inferInstanceAs (Decidable (_ ∧ _))

/-- What an acknowledgement acknowledges: the first file of its name, and all that were sent before that. -/
def acknowledges (sent : List TrFile) (r : Int × Int) : List TrFile := sent.take (sent.findIdx (·.Named r) + 1)

namespace Tracked

def start (client : TrClient) : Tracked := ⟨client, [], none, [], [], [], [], [], []⟩

def reply (t : Tracked) (line : Bytes) : Tracked :=
  { t with
    client := t.client.reply line
    acknowledged := match TrClient.parseAck line with
      | some r => t.acknowledged ++ acknowledges t.sent r
      | none   => t.acknowledged }

def remove (t : Tracked) : Tracked :=
  match t.client.removeTurn with
  | .stop           => { t with client := t.client.endRemoving }
  | .acked f id client => { t with client, removed := t.removed ++ [f], permAcks := t.permAcks ++ [id] }
  | .moved f client    => { t with client, removed := t.removed ++ [f] }

def chosen (t : Tracked) : TrClient.Choice → Tracked
  | .nothing client => { t with client := { client with stage := .sending } }
  | .ended client   => { t with client := { client with stage := .sending } }
  | .begun f client => { t with client := { client with stage := .sending }, sending := some f }
  | .made f client  => { t with
      client := { client with stage := .sending }
      sending := some f
      queued := t.queued ++ [f] }

def select (e : Perm.Env) (t : Tracked) : Option Tracked := (t.client.chooseFile e).map t.chosen

/-- The socket has taken some bytes. -/
def flushed (t : Tracked) (taken : Bytes) (client : TrClient) : Tracked :=
  { t with client := { client with stage := .replies }, wire := t.wire ++ taken }

/-- The last byte of the file under way was taken. -/
def finish (t : Tracked) : Tracked :=
  { t with sending := none, finished := t.finished ++ t.sending.toList, sent := t.sent ++ t.sending.toList }

/-- The buffer is filled and flushed; with the last byte of its last line a file is sent. -/
def transmit (n : Nat) (t : Tracked) : Tracked :=
  let r := t.client.fillBuffer.bufferSend n
  if r.2.dataDone ∧ r.2.fileTransfertDeinit = false then (t.flushed r.1 r.2).finish else t.flushed r.1 r.2

end Tracked

/-! ## Runs -/

inductive Action where
  /-- A connection to the server itself or to a proxy. -/
  | connect (direct : Bool)
  | lose
  | replies (lines : List Bytes)
  | remove
  | select (e : Perm.Env)
  | transmit (n : Nat)
  | flush (e : Perm.Env)
  | sendMsg (e : Perm.Env) (msg : Bytes)
  | queueAddFile (f : TrFile)
  | getLastFileSent

/-! What a step brings, for the predicates that ask something of one kind of step. -/

def Action.lines : Action → List Bytes
  | .replies lines => lines
  | _              => []

def Action.file : Action → Option TrFile
  | .queueAddFile f => some f
  | _               => none

def Action.selecting : Action → Option Perm.Env
  | .select e => some e
  | _         => none

def Action.message : Action → Option Bytes
  | .sendMsg _ msg => some msg
  | _              => none

/-- A turn of the loop with nothing to remove; the socket takes a whole buffer. -/
def turn (e : Perm.Env) (lines : List Bytes) : List Action :=
  [.replies lines, .remove, .select e, .transmit TR_BUFFER_SIZE]

/-- The turns a file of one blob takes: its header, its data, the end of its data, its last line. -/
def fileTurns (e : Perm.Env) : List Action := turn e [] ++ turn e [] ++ turn e [] ++ turn e []

def ackLine (minId majId : Int) : Bytes := ascii "ACK ".toList ++ printInt minId ++ ascii [' '] ++ printInt majId

namespace Tracked

/-- A call on the permanent FIFO. -/
def onMessages (t : Tracked) (call : Perm.Env × Perm.Call) : Option Tracked :=
  match t.client.inputQueueMsg with
  | none   => some t
  | some m => (m.step call).map fun m => { t with client := { t.client with inputQueueMsg := some m } }

def queueAddFile (t : Tracked) (f : TrFile) : Tracked :=
  let f := { f with handle := t.client.allocated }
  if t.client.inputQueue.isFull then t
  else { t with
    client := { t.client with inputQueue := t.client.inputQueue.write f, allocated := t.client.allocated + 1 }
    queued := t.queued ++ [f] }

def getLastFileSent (t : Tracked) : Tracked :=
  { t with client := { t.client with outputQueue := t.client.outputQueue.read.2 } }

/-- A step of the thread, where it is at it, or of a user. -/
def step (t : Tracked) : Action → Option Tracked
  | .connect direct =>
    if t.client.stage = .notConnected then some { t with
      client := t.client.connect
      wire := if direct then t.client.iniLine else []
      sending := none
      finished := [] }
    else none
  | .lose =>
    if t.client.stage = .replies ∨ t.client.stage = .sending then
      some { t with client := { t.client with stage := .notConnected } }
    else none
  | .replies lines =>
    if t.client.stage = .replies then
      let t := lines.foldl reply t
      some { t with client := { t.client with stage := .removing } }
    else none
  | .remove     => if t.client.stage = .removing then some t.remove else none
  | .select e   => if t.client.stage = .selecting then t.select e else none
  | .transmit n => if t.client.stage = .sending then some (t.transmit n) else none
  | .flush e    => if t.client.stage = .notConnected then t.onMessages (e, .flush 15) else none
  | .sendMsg e msg   => t.onMessages (e, .write msg 0)
  | .queueAddFile f  => some (t.queueAddFile f)
  | .getLastFileSent => some t.getLastFileSent

/-- The server acknowledges only files it has received completely. -/
def ServerAcks (t : Tracked) : Action → Prop
  | .replies lines => ∀ line ∈ lines, ∀ r, TrClient.parseAck line = some r → ∃ f ∈ t.sent, f.Named r
  | _              => True

instance (t : Tracked) (line : Bytes) :
    Decidable (∀ r, TrClient.parseAck line = some r → ∃ f ∈ t.sent, f.Named r) :=
  match h : TrClient.parseAck line with
  | none   => isTrue fun _ hr => by cases hr
  | some r => decidable_of_iff (∃ f ∈ t.sent, f.Named r) (by simp)

theorem serverAcks_iff (t : Tracked) (a : Action) :
    ServerAcks t a ↔ ∀ line ∈ a.lines, ∀ r, TrClient.parseAck line = some r → ∃ f ∈ t.sent, f.Named r := by
  cases a <;> simp [ServerAcks, Action.lines]

instance (t : Tracked) (a : Action) : Decidable (ServerAcks t a) := decidable_of_iff _ (serverAcks_iff t a).symm

end Tracked
end Transport
end Flp

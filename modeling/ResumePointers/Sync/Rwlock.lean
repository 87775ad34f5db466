import ResumePointers.Lib.Threads

/-! The read-write locks of `os`: the counters, and the code of a writer, which is the same in
`rwlock-reader-pref.cpp` and in `rwlock-writer-pref.cpp`. -/
namespace ResumePointers.Sync

/-- `struct read_write_lock` without its mutex `thing`. -/
structure Counters where
  numRead : ℤ
  numWrit : ℤ
deriving DecidableEq

/-- Where a thread is in `WriterLock` and `WriterUnlock`. A writer that has left `WriterLock` is
`writing` if it returned from inside, and `fallen` if it came out of the loop. -/
inductive Writer
  | lock
  | inc
  | test
  | unlock
  | loopRead
  | loopWrit
  | lockAgain
  | writing
  | fallen
  | dec
  | release
deriving DecidableEq

namespace Writer

/-- `WriterLock` and `WriterUnlock`, for threads that are at `idle` before and after. -/
def code {Pc : Type} (idle : Pc) (w : Writer → Pc) : Writer → Instr Counters Pc
  | .lock => .lock (w .inc)
  | .inc => .act (fun s => { s with numWrit := s.numWrit + 1 }) fun _ => w .test
  | .test => .act id fun s => if s.numRead > 0 then w .unlock else w .writing
  | .unlock => .unlock (w .loopRead)
  | .loopRead => .act id fun s => if s.numRead > 0 then w .lockAgain else w .loopWrit
  | .loopWrit => .act id fun s => if s.numWrit > 0 then w .lockAgain else w .fallen
  | .lockAgain => .lock (w .test)
  | .writing => .call [w .dec]
  | .fallen => .call [w .dec]
  | .dec => .act (fun s => { s with numWrit := s.numWrit - 1 }) fun _ => w .release
  | .release => .unlock idle

/-- The mutex is held. -/
def holds : Writer → Bool
  | .inc | .test | .unlock | .writing | .dec | .release => true
  | _ => false

/-- The writer is past its increment and before its decrement. -/
def counts : Writer → Bool
  | .lock | .inc | .release => false
  | _ => true

/-- Between the return of `WriterLock` and the call of `WriterUnlock`. -/
def inside : Writer → Bool
  | .writing | .fallen => true
  | _ => false

end Writer

end ResumePointers.Sync

import AuxKernel.Basic

/-!
# Record locks

The chain of record locks of a file (`COMMON/os/flock.c`). A chain is doubly
linked in the kernel, here it is the list of its records. A pointer into it is
the number of records up to the one it points to, so that `NULL` is `0`, the
record after a prefix `done` is pointed to by `done.length + 1`, its `prev` is
`done.length`, and the records up to a pointer are as many as the pointer says.

Records come from a free list shared by all files: what is left of it is
`nfree`.
-/

namespace AuxKernel.RecordLock

/-- The lock types, and the other values a request may carry. -/
inductive LockType
  | rdlck
  | wrlck
  | unlck
  | other (l_type : ℤ)
  deriving DecidableEq, Repr

/-- The locking data of a request or a record. -/
structure Flock where
  l_type : LockType
  l_whence : ℤ
  l_start : ℤ
  l_len : ℤ
  l_pid : ℤ
  deriving DecidableEq, Repr

/-- Once a request is relative to the beginning of the file, the field of its
    length holds its end. -/
abbrev Flock.l_end (ld : Flock) : ℤ := ld.l_len

/-- The end of a lock up to the end of the file. -/
def MAXEND : ℤ := 0o17777777777

/-- A record: its locking data, and the word counting the processes sleeping on
    it (`wakeflg`), or, in a sleeping record, the process it waits for
    (`blkpid`). -/
structure Filock where
  set : Flock
  stat : ℤ
  deriving DecidableEq, Repr

/-! ## Insertion and deletion -/

/-- Insert a record with the data `lckdat` after the pointer `fl`; it fails when
    no record is free. -/
def insflck (pid : ℤ) (chain : List Filock) (nfree : ℕ) (lckdat : Flock) (fl : ℕ) :
    Option (List Filock × ℕ) :=
  match nfree with
  | 0 => none
  | n + 1 => some (chain.take fl ++ ⟨{ lckdat with l_pid := pid }, 0⟩ :: chain.drop fl, n)

/-- How many records, from the first of these on, start before `start`: the scan
    that looks for the place of a record. -/
def startBefore (start : ℤ) : List Filock → ℕ
  | [] => 0
  | f :: fs => if f.set.l_start < start then startBefore start fs + 1 else 0

/-! ## Regions -/

/-- Where a request starts, relative to a record. -/
inductive StartRegion
  | before
  | start
  | middle
  | atEnd
  | after
  deriving DecidableEq, Repr

/-- Where a request ends, relative to a record. -/
inductive EndRegion
  | before
  | start
  | middle
  | atEnd
  | after
  deriving DecidableEq, Repr

/-- The span of a request relative to a record. -/
def regflck (ld : Flock) (flp : Filock) : StartRegion × EndRegion :=
  if ld.l_start > flp.set.l_start ∧ ld.l_start > flp.set.l_end then (.after, .after)
  else if ld.l_start > flp.set.l_start ∧ ld.l_start = flp.set.l_end then (.atEnd, .after)
  else
    let s : StartRegion :=
      if ld.l_start > flp.set.l_start then .middle
      else if ld.l_start = flp.set.l_start then .start
      else .before
    let e : EndRegion :=
      if ld.l_end > flp.set.l_start then
        if ld.l_end > flp.set.l_end then .after
        else if ld.l_end = flp.set.l_end then .atEnd
        else .middle
      else if ld.l_end = flp.set.l_start then .start
      else .before
    (s, e)

/-! ## Adjusting a chain -/

/-- How the scan of `flckadj` ends: by returning from it, or by falling out of
    its loop with a place for the request and the request as merged so far. -/
inductive Scan
  | ret (chain : List Filock) (nfree : ℕ) (rv : Option Errno)
  | fin (chain : List Filock) (nfree : ℕ) (insrtp : ℕ) (ld : Flock)
  deriving DecidableEq, Repr

/-- The piece of `flp` left after the end of the request. -/
def severed (ld : Flock) (flp : Filock) : Flock := { flp.set with l_start := ld.l_end }

/-- The record `flp` cut off at the start of the request; those sleeping on it
    are woken. -/
def cutAt (ld : Flock) (flp : Filock) : Filock := ⟨{ flp.set with l_len := ld.l_start }, 0⟩

/-- Where the severed piece goes, counted from `flp`: after the records that
    start before the request, and after `flp` in any case. -/
def severAt (ld : Flock) (flp : Filock) (rest : List Filock) : ℕ :=
  max 1 (startBefore ld.l_start (flp :: rest))

/-- `if (insrtp == flp) insrtp = flp->prev`, for the record after `done`. -/
def backOff (done : List Filock) (insrtp : ℕ) : ℕ :=
  if insrtp = done.length + 1 then done.length else insrtp

/-- The loop of `flckadj` from the first record of `todo` on: release what the
    process `pid` holds in the request `ld`. Its deleted records are free again. -/
def adjLoop (pid : ℤ) : (done todo : List Filock) → (nfree insrtp : ℕ) → (ld : Flock) → Scan
  | done, [], nfree, insrtp, ld => .fin done nfree insrtp ld
  | done, flp :: rest, nfree, insrtp, ld =>
    if flp.set.l_pid = pid then
      match regflck ld flp with
      | (.before, .before) => .fin (done ++ flp :: rest) nfree insrtp ld
      | (.before, .start) =>
        if ld.l_type = flp.set.l_type then
          .fin (done ++ rest) (nfree + 1) (backOff done insrtp) { ld with l_len := flp.set.l_end }
        else .fin (done ++ flp :: rest) nfree insrtp ld
      | (.start, .atEnd) =>
        if ld.l_type = flp.set.l_type then .ret (done ++ flp :: rest) nfree none
        else adjLoop pid done rest (nfree + 1) done.length ld
      | (.start, .after) => adjLoop pid done rest (nfree + 1) done.length ld
      | (.before, .atEnd) =>
        if ld.l_type = flp.set.l_type then
          .fin (done ++ rest) (nfree + 1) (backOff done insrtp) ld
        else adjLoop pid done rest (nfree + 1) (backOff done insrtp) ld
      | (.before, .after) => adjLoop pid done rest (nfree + 1) (backOff done insrtp) ld
      | (.before, .middle) =>
        if ld.l_type = flp.set.l_type then
          .fin (done ++ rest) (nfree + 1) (backOff done insrtp) { ld with l_len := flp.set.l_end }
        else
          match insflck pid (flp :: rest) nfree (severed ld flp) (severAt ld flp rest) with
          | none => .ret (done ++ flp :: rest) nfree (some .enospc)
          | some (chain, n) => .fin (done ++ chain.tail) (n + 1) (backOff done insrtp) ld
      | (.start, .middle) =>
        if ld.l_type = flp.set.l_type then .ret (done ++ flp :: rest) nfree none
        else
          match insflck pid (flp :: rest) nfree (severed ld flp) (severAt ld flp rest) with
          | none => .ret (done ++ flp :: rest) nfree (some .enospc)
          | some (chain, n) => .fin (done ++ chain.tail) (n + 1) done.length ld
      | (.middle, .middle) =>
        if ld.l_type = flp.set.l_type then .ret (done ++ flp :: rest) nfree none
        else
          match insflck pid (flp :: rest) nfree (severed ld flp) (severAt ld flp rest) with
          | none => .ret (done ++ flp :: rest) nfree (some .enospc)
          | some (chain, n) =>
            .fin (done ++ cutAt ld flp :: chain.tail) n (done.length + 1) ld
      | (.middle, .atEnd) =>
        if ld.l_type = flp.set.l_type then .ret (done ++ flp :: rest) nfree none
        else adjLoop pid (done ++ [cutAt ld flp]) rest nfree (done.length + 1) ld
      | (.middle, .after) | (.atEnd, .after) =>
        if ld.l_type = flp.set.l_type then
          adjLoop pid done rest (nfree + 1) done.length { ld with l_start := flp.set.l_start }
        else adjLoop pid (done ++ [cutAt ld flp]) rest nfree (done.length + 1) ld
      | (.after, .after) => adjLoop pid (done ++ [flp]) rest nfree (done.length + 1) ld
      | _ => adjLoop pid (done ++ [flp]) rest nfree insrtp ld
    else if flp.set.l_start > ld.l_end then .fin (done ++ flp :: rest) nfree insrtp ld
    else adjLoop pid (done ++ [flp]) rest nfree insrtp ld

/-- The pointer after which the request is inserted: `insrtp`, moved over the
    records that start before it. -/
def place (chain : List Filock) (insrtp : ℕ) (ld : Flock) : ℕ :=
  if insrtp = 0 then 0
  else max insrtp (insrtp - 1 + startBefore ld.l_start (chain.drop (insrtp - 1)))

/-- Adjust the chain for the request `ld`, from the pointer `insrtp` on: the
    chain, the free records left and the value returned. -/
def flckadj (pid : ℤ) (chain : List Filock) (nfree insrtp : ℕ) (ld : Flock) :
    List Filock × ℕ × Option Errno :=
  match adjLoop pid (chain.take (insrtp - 1)) (chain.drop (insrtp - 1)) nfree insrtp ld with
  | .ret chain nfree rv => (chain, nfree, rv)
  | .fin chain nfree insrtp ld =>
    if ld.l_type = .unlck then (chain, nfree, none)
    else
      match insflck pid chain nfree ld (place chain insrtp ld) with
      | none => (chain, nfree, some .enospc)
      | some (chain, nfree) => (chain, nfree, none)

/-! ## Blocking -/

/-- The record `f` of another process keeps the process `pid` from `lckdat`. -/
def conflicts (pid : ℤ) (lckdat : Flock) (f : Filock) : Bool :=
  lckdat.l_start < f.set.l_end && lckdat.l_end > f.set.l_start && f.set.l_pid ≠ pid &&
    (f.set.l_type = .wrlck || (f.set.l_type = .rdlck && lckdat.l_type = .wrlck))

/-- The second scan of `blocked`, from the record pointed to by `k + 1` on: the
    pointer to the first conflicting record, up to one starting after the end of
    the request. -/
def blockedTail (pid : ℤ) (lckdat : Flock) : (k : ℕ) → List Filock → Option ℕ
  | _, [] => none
  | k, f :: fs =>
    if conflicts pid lckdat f then some (k + 1)
    else if f.set.l_start > lckdat.l_end then none
    else blockedTail pid lckdat (k + 1) fs

/-- The first scan of `blocked`, over the records starting before the request,
    up to one of the process itself that meets it; with it goes the pointer
    `insrt` to the record after which the request belongs. -/
def blockedHead (pid : ℤ) (lckdat : Flock) : (k insrt : ℕ) → List Filock → Option ℕ × ℕ
  | _, insrt, [] => (none, insrt)
  | k, insrt, f :: fs =>
    if f.set.l_start < lckdat.l_start then
      if f.set.l_pid = pid then
        if lckdat.l_start ≤ f.set.l_end ∧ lckdat.l_end ≥ f.set.l_start then
          (blockedTail pid lckdat k (f :: fs), k + 1)
        else blockedHead pid lckdat (k + 1) (k + 1) fs
      else if conflicts pid lckdat f then (some (k + 1), k + 1)
      else blockedHead pid lckdat (k + 1) (k + 1) fs
    else (blockedTail pid lckdat k (f :: fs), insrt)

/-- The record of another process that blocks the request, if any, and the
    record after which the request is to be placed. -/
def blocked (pid : ℤ) (chain : List Filock) (lckdat : Flock) : Option ℕ × ℕ :=
  blockedHead pid lckdat 0 0 chain

end AuxKernel.RecordLock

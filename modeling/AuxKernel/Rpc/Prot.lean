import AuxKernel.Rpc.XdrMbuf

/-!
# RPC messages

The routines of `RPC/sys/rpc_prot.c` for messages, each of which has two ways: through space in
the stream that `XDR_INLINE` gives them, and field by field (`xdr.c`). A stream is memory, a
position in it, and how many bytes are left; it gives out space where it sees fit.

A routine that fails is `none`.
-/

namespace AuxKernel.Rpc.Prot

/-! ## Streams -/

/-- What a stream is for. -/
inductive XdrOp
  | encode
  | decode
  | free
  deriving DecidableEq, Repr

/-- A stream: its memory, the position in it, and how many bytes are left; and whether a number
    of bytes at a position can be given out (`XDR_INLINE`). -/
structure Xdr where
  x_op : XdrOp
  mem : ℕ → UInt8
  x_private : ℕ
  x_handy : ℤ
  contiguous : ℕ → ℕ → Bool

namespace Xdr

variable (x : Xdr)

/-- The `n` bytes at an address. -/
def read (i n : ℕ) : List UInt8 := (List.range n).map fun j => x.mem (i + j)

/-- Bytes are copied to an address. -/
def write (i : ℕ) (b : List UInt8) : Xdr :=
  { x with mem := fun j => if i ≤ j then b.getD (j - i) (x.mem j) else x.mem j }

def skip (n : ℕ) : Xdr :=
  { x with x_private := x.x_private + n, x_handy := x.x_handy - n }

def getbytes (n : ℕ) : Option (List UInt8 × Xdr) :=
  if n ≤ x.x_handy then some (x.read x.x_private n, x.skip n) else none

def putbytes (b : List UInt8) : Option Xdr :=
  if b.length ≤ x.x_handy then some ((x.write x.x_private b).skip b.length) else none

/-- The word at an address. -/
def word (i : ℕ) : UInt32 := UInt32.ofInt (ntohl (x.read i 4))

def getlong : Option (UInt32 × Xdr) :=
  if 4 ≤ x.x_handy then some (x.word x.x_private, x.skip 4) else none

def putlong (w : UInt32) : Option Xdr := x.putbytes (htonl w.toNat)

/-- What is left of a stream after a word that it does not have. -/
def ranOut : Xdr := { x with x_handy := x.x_handy - 4 }

/-- Space in the stream. -/
def inline (n : ℕ) : Option (ℕ × Xdr) :=
  if n ≤ x.x_handy ∧ x.contiguous x.x_private n then some (x.x_private, x.skip n) else none

end Xdr

/-! ## Field by field -/

def xdr_u_long (x : Xdr) (w : UInt32) : Option (UInt32 × Xdr) :=
  match x.x_op with
  | .decode => x.getlong
  | .encode => (x.putlong w).map (w, ·)
  | .free => some (w, x)

def xdr_u_int (x : Xdr) (w : UInt32) : Option (UInt32 × Xdr) := xdr_u_long x w

/-- Enumerations are words. -/
def xdr_enum (x : Xdr) (w : UInt32) : Option (UInt32 × Xdr) := xdr_u_long x w

/-- What is missing to a multiple of four. -/
def rndup (cnt : ℕ) : ℕ := if cnt % 4 > 0 then 4 - cnt % 4 else 0

/-- The next multiple of four. -/
def RNDUP (n : ℕ) : ℕ := (n + 4 - 1) / 4 * 4

def xdr_opaque (x : Xdr) (cp : List UInt8) (cnt : ℕ) : Option (List UInt8 × Xdr) :=
  if cnt = 0 then some ([], x)
  else
    match x.x_op with
    | .decode => do
      let (b, x) ← x.getbytes cnt
      if rndup cnt = 0 then some (b, x) else (x.getbytes (rndup cnt)).map fun (_, x) => (b, x)
    | .encode => do
      let x ← x.putbytes cp
      if rndup cnt = 0 then some (cp, x)
      else (x.putbytes (List.replicate (rndup cnt) 0)).map (cp, ·)
    | .free => some (cp, x)

def xdr_bytes (x : Xdr) (cp : List UInt8) (maxsize : ℕ) : Option (List UInt8 × Xdr) := do
  let (size, x) ← xdr_u_int x (UInt32.ofNat cp.length)
  if size.toNat > maxsize ∧ x.x_op ≠ .free then none
  else if x.x_op = .free then some ([], x)
  else xdr_opaque x cp size.toNat

/-! ## Messages -/

/-- The most bytes of authentication (`MAX_AUTH_BYTES`). -/
def MAX_AUTH_BYTES : ℕ := 400

/-- Authentication. The length (`oa_length`) is that of the bytes at `oa_base`. -/
structure OpaqueAuth where
  oa_flavor : UInt32
  oa_base : List UInt8
  deriving DecidableEq, Repr

def OpaqueAuth.oa_length (oa : OpaqueAuth) : ℕ := oa.oa_base.length

/-- The directions of messages (`enum msg_type`). -/
def CALL : UInt32 := 0
@[inherit_doc CALL]
def REPLY : UInt32 := 1

/-- The kinds of replies (`enum reply_stat`). -/
def MSG_ACCEPTED : UInt32 := 0
@[inherit_doc MSG_ACCEPTED]
def MSG_DENIED : UInt32 := 1

/-- Those of accepted replies that have something to say (`enum accept_stat`). -/
def SUCCESS : UInt32 := 0
@[inherit_doc SUCCESS]
def PROG_MISMATCH : UInt32 := 2

/-- Why a call is rejected (`enum reject_stat`). -/
def RPC_MISMATCH : UInt32 := 0
@[inherit_doc RPC_MISMATCH]
def AUTH_ERROR : UInt32 := 1

def RPC_MSG_VERSION : UInt32 := 2

/-- A call (`struct rpc_msg` with `rm_call`). -/
structure CallMsg where
  rm_xid : UInt32
  rm_direction : UInt32
  cb_rpcvers : UInt32
  cb_prog : UInt32
  cb_vers : UInt32
  cb_proc : UInt32
  cb_cred : OpaqueAuth
  cb_verf : OpaqueAuth
  deriving DecidableEq, Repr

/-- The versions that are there. -/
structure Versions where
  low : UInt32
  high : UInt32
  deriving DecidableEq, Repr

/-- An accepted reply. The results are of a type of the caller's. -/
structure AcceptedReply (ρ : Type) where
  ar_verf : OpaqueAuth
  ar_stat : UInt32
  ar_vers : Versions
  ar_results : ρ
  deriving DecidableEq, Repr

structure RejectedReply where
  rj_stat : UInt32
  rj_vers : Versions
  rj_why : UInt32
  deriving DecidableEq, Repr

/-- A reply (`struct rpc_msg` with `rm_reply`); what it means is in one of its two arms. -/
structure ReplyMsg (ρ : Type) where
  rm_xid : UInt32
  rm_direction : UInt32
  rp_stat : UInt32
  rp_acpt : AcceptedReply ρ
  rp_rjct : RejectedReply
  deriving DecidableEq, Repr

def xdr_opaque_auth (x : Xdr) (ap : OpaqueAuth) : Option (OpaqueAuth × Xdr) := do
  let (flavor, x) ← xdr_enum x ap.oa_flavor
  let (base, x) ← xdr_bytes x ap.oa_base MAX_AUTH_BYTES
  some (⟨flavor, base⟩, x)

def xdr_versions (x : Xdr) (v : Versions) : Option (Versions × Xdr) := do
  let (low, x) ← xdr_u_long x v.low
  let (high, x) ← xdr_u_long x v.high
  some (⟨low, high⟩, x)

section Replies

variable {ρ : Type} (proc : Xdr → ρ → Option (ρ × Xdr))

/-- What follows the status of an accepted reply. -/
def acceptedArm (x : Xdr) (ar : AcceptedReply ρ) : Option (AcceptedReply ρ × Xdr) :=
  if ar.ar_stat = SUCCESS then
    (proc x ar.ar_results).map fun (r, x) => ({ ar with ar_results := r }, x)
  else if ar.ar_stat = PROG_MISMATCH then
    (xdr_versions x ar.ar_vers).map fun (v, x) => ({ ar with ar_vers := v }, x)
  else some (ar, x)

def xdr_accepted_reply (x : Xdr) (ar : AcceptedReply ρ) : Option (AcceptedReply ρ × Xdr) := do
  let (verf, x) ← xdr_opaque_auth x ar.ar_verf
  let (stat, x) ← xdr_enum x ar.ar_stat
  acceptedArm proc x { ar with ar_verf := verf, ar_stat := stat }

def xdr_rejected_reply (x : Xdr) (rr : RejectedReply) : Option (RejectedReply × Xdr) := do
  let (stat, x) ← xdr_enum x rr.rj_stat
  if stat = RPC_MISMATCH then
    (xdr_versions x rr.rj_vers).map fun (v, x) => ({ rr with rj_stat := stat, rj_vers := v }, x)
  else if stat = AUTH_ERROR then
    (xdr_enum x rr.rj_why).map fun (w, x) => ({ rr with rj_stat := stat, rj_why := w }, x)
  else none

/-- The union of the two arms (`xdr_union` with `reply_dscrm`). -/
def xdr_union (x : Xdr) (rmsg : ReplyMsg ρ) : Option (ReplyMsg ρ × Xdr) := do
  let (stat, x) ← xdr_enum x rmsg.rp_stat
  if stat = MSG_ACCEPTED then
    (xdr_accepted_reply proc x rmsg.rp_acpt).map fun (ar, x) =>
      ({ rmsg with rp_stat := stat, rp_acpt := ar }, x)
  else if stat = MSG_DENIED then
    (xdr_rejected_reply x rmsg.rp_rjct).map fun (rr, x) =>
      ({ rmsg with rp_stat := stat, rp_rjct := rr }, x)
  else none

/-- A reply field by field. -/
def replymsgFields (x : Xdr) (rmsg : ReplyMsg ρ) : Option (ReplyMsg ρ × Xdr) := do
  let (xid, x) ← xdr_u_long x rmsg.rm_xid
  let (direction, x) ← xdr_enum x rmsg.rm_direction
  if direction = REPLY then
    xdr_union proc x { rmsg with rm_xid := xid, rm_direction := direction }
  else none

end Replies

/-- A call field by field. -/
def callmsgFields (x : Xdr) (cmsg : CallMsg) : Option (CallMsg × Xdr) := do
  let (xid, x) ← xdr_u_long x cmsg.rm_xid
  let (direction, x) ← xdr_enum x cmsg.rm_direction
  if direction ≠ CALL then none
  else
    let (rpcvers, x) ← xdr_u_long x cmsg.cb_rpcvers
    if rpcvers ≠ RPC_MSG_VERSION then none
    else
      let (prog, x) ← xdr_u_long x cmsg.cb_prog
      let (vers, x) ← xdr_u_long x cmsg.cb_vers
      let (proc, x) ← xdr_u_long x cmsg.cb_proc
      let (cred, x) ← xdr_opaque_auth x cmsg.cb_cred
      let (verf, x) ← xdr_opaque_auth x cmsg.cb_verf
      some (⟨xid, direction, rpcvers, prog, vers, proc, cred, verf⟩, x)

/-! ## Space in the stream -/

/-- Words put into space (`IXDR_PUT_LONG`), and where it goes on. -/
def putLongs : (x : Xdr) → (buf : ℕ) → List UInt32 → Xdr × ℕ
  | x, buf, [] => (x, buf)
  | x, buf, w :: l => putLongs (x.write buf (htonl w.toNat)) (buf + 4) l

/-- Authentication put into space. The bytes up to a multiple of four are left as they are. -/
def putAuth (x : Xdr) (buf : ℕ) (oa : OpaqueAuth) : Xdr × ℕ :=
  let (x, buf) := putLongs x buf [oa.oa_flavor, UInt32.ofNat oa.oa_length]
  if oa.oa_length ≠ 0 then (x.write buf oa.oa_base, buf + RNDUP oa.oa_length) else (x, buf)

/-- The bytes of authentication, of a length that was there before them. -/
def getBody (x : Xdr) (length : ℕ) : Option (List UInt8 × Xdr) :=
  if length ≠ 0 then
    if length > MAX_AUTH_BYTES then none
    else
      match x.inline (RNDUP length) with
      | none => xdr_opaque x [] length
      | some (buf, x) => some (x.read buf length, x)
  else some ([], x)

/-- Authentication; its flavor and its length may be in space or not. -/
def getAuth (x : Xdr) (oa : OpaqueAuth) : Option (OpaqueAuth × Xdr) := do
  let (flavor, length, x) ←
    match x.inline (2 * 4) with
    | some (buf, x) => some (x.word buf, x.word (buf + 4), x)
    | none => do
      let (flavor, x) ← xdr_enum x oa.oa_flavor
      let (length, x) ← xdr_u_int x (UInt32.ofNat oa.oa_length)
      some (flavor, length, x)
  let (base, x) ← getBody x length.toNat
  some (⟨flavor, base⟩, x)

def callmsgPut (x : Xdr) (buf : ℕ) (cmsg : CallMsg) : Option (CallMsg × Xdr) :=
  if cmsg.rm_direction ≠ CALL then none
  else if cmsg.cb_rpcvers ≠ RPC_MSG_VERSION then none
  else
    let (x, buf) := putLongs x buf [cmsg.rm_xid, cmsg.rm_direction, cmsg.cb_rpcvers, cmsg.cb_prog,
      cmsg.cb_vers, cmsg.cb_proc]
    let (x, buf) := putAuth x buf cmsg.cb_cred
    let (x, _) := putAuth x buf cmsg.cb_verf
    some (cmsg, x)

def callmsgGet (x : Xdr) (buf : ℕ) (cmsg : CallMsg) : Option (CallMsg × Xdr) := do
  let direction := x.word (buf + 4)
  let rpcvers := x.word (buf + 8)
  if direction ≠ CALL then none
  else if rpcvers ≠ RPC_MSG_VERSION then none
  else
    let flavor := x.word (buf + 24)
    let (base, y) ← getBody x (x.word (buf + 28)).toNat
    let (verf, y) ← getAuth y cmsg.cb_verf
    some (⟨x.word buf, direction, rpcvers, x.word (buf + 12), x.word (buf + 16), x.word (buf + 20),
      ⟨flavor, base⟩, verf⟩, y)

/-- A call message. -/
def xdr_callmsg (x : Xdr) (cmsg : CallMsg) : Option (CallMsg × Xdr) :=
  match x.x_op with
  | .encode =>
    if cmsg.cb_cred.oa_length > MAX_AUTH_BYTES then none
    else if cmsg.cb_verf.oa_length > MAX_AUTH_BYTES then none
    else
      match x.inline (8 * 4 + RNDUP cmsg.cb_cred.oa_length + 2 * 4 +
          RNDUP cmsg.cb_verf.oa_length) with
      | some (buf, x) => callmsgPut x buf cmsg
      | none => callmsgFields x cmsg
  | .decode =>
    match x.inline (8 * 4) with
    | some (buf, x) => callmsgGet x buf cmsg
    | none => callmsgFields x cmsg
  | .free => callmsgFields x cmsg

section Replies

variable {ρ : Type} (proc : Xdr → ρ → Option (ρ × Xdr))

def replymsgPut (x : Xdr) (buf : ℕ) (rmsg : ReplyMsg ρ) : Option (ReplyMsg ρ × Xdr) :=
  let (x, buf) := putLongs x buf [rmsg.rm_xid, rmsg.rm_direction, rmsg.rp_stat]
  let (x, buf) := putAuth x buf rmsg.rp_acpt.ar_verf
  let (x, _) := putLongs x buf [rmsg.rp_acpt.ar_stat]
  (acceptedArm proc x rmsg.rp_acpt).map fun (ar, x) => ({ rmsg with rp_acpt := ar }, x)

/-- Whether the status is there is not asked: if not, it is what it was. -/
def replymsgGet (x : Xdr) (buf : ℕ) (rmsg : ReplyMsg ρ) : Option (ReplyMsg ρ × Xdr) :=
  let rmsg := { rmsg with
    rm_xid := x.word buf, rm_direction := x.word (buf + 4), rp_stat := x.word (buf + 8) }
  if rmsg.rm_direction ≠ REPLY then none
  else if rmsg.rp_stat ≠ MSG_ACCEPTED then
    if rmsg.rp_stat = MSG_DENIED then
      (xdr_rejected_reply x rmsg.rp_rjct).map fun (rr, x) => ({ rmsg with rp_rjct := rr }, x)
    else none
  else do
    let (verf, x) ← getAuth x rmsg.rp_acpt.ar_verf
    let (stat, x) := (xdr_enum x rmsg.rp_acpt.ar_stat).getD (rmsg.rp_acpt.ar_stat, x.ranOut)
    (acceptedArm proc x { rmsg.rp_acpt with ar_verf := verf, ar_stat := stat }).map fun (ar, x) =>
      ({ rmsg with rp_acpt := ar }, x)

/-- A reply message. -/
def xdr_replymsg (x : Xdr) (rmsg : ReplyMsg ρ) : Option (ReplyMsg ρ × Xdr) :=
  match x.x_op with
  | .encode =>
    if rmsg.rp_stat = MSG_ACCEPTED ∧ rmsg.rm_direction = REPLY then
      match x.inline (6 * 4 + rmsg.rp_acpt.ar_verf.oa_length) with
      | some (buf, x) => replymsgPut proc x buf rmsg
      | none => replymsgFields proc x rmsg
    else replymsgFields proc x rmsg
  | .decode =>
    match x.inline (3 * 4) with
    | some (buf, x) => replymsgGet proc x buf rmsg
    | none => replymsgFields proc x rmsg
  | .free => replymsgFields proc x rmsg

end Replies

end AuxKernel.Rpc.Prot

import AuxKernel.Rpc.Prot
import AuxKernel.Rpc.XdrMbufFlat

/-!
# Two ways of a message

Field by field a message becomes the bytes that it is made of (`callBytes`, `replyBytes`), and
is read from these again. Through space in the stream a call is filled up by what lies there
(`callmsgPut_eq`), a reply is cut where its verifier ends (`replymsgPut_eq`), and a reply that
ends before its status can be taken for one (`xdr_replymsg_decode_iff`).

* `paths_agree_iff`: but for that, both ways are the same.
-/

namespace AuxKernel.Rpc.Prot

variable {x : Xdr}

/-! ## Memory -/

namespace Xdr

@[simp] theorem length_read (x : Xdr) (i n : ℕ) : (x.read i n).length = n := by
  rw [read, List.length_map, List.length_range]

theorem read_add (x : Xdr) (i n k : ℕ) : x.read i (n + k) = x.read i n ++ x.read (i + n) k := by
  simp only [read, List.range_add, List.map_append, List.map_map, Function.comp_def, Nat.add_assoc]

theorem read_write (x : Xdr) (i : ℕ) (b : List UInt8) : (x.write i b).read i b.length = b := by
  refine List.ext_getElem (length_read _ _ _) fun j _ hj => ?_
  simp [read, write, hj]

@[simp] theorem write_nil (x : Xdr) (i : ℕ) : x.write i [] = x := by
  simp [write]

theorem write_append (x : Xdr) (i : ℕ) (a b : List UInt8) :
    (x.write i a).write (i + a.length) b = x.write i (a ++ b) := by
  simp only [write, mk.injEq, true_and, and_true]
  funext j
  rcases lt_or_ge j i with hlt | hge
  · rw [if_neg (by omega), if_neg (by omega), if_neg (by omega)]
  rcases lt_or_ge j (i + a.length) with hlt | hge'
  · rw [if_neg (by omega), if_pos hge, if_pos hge, List.getD_append _ _ _ _ (by omega)]
  · rw [if_pos hge', if_pos hge, if_pos hge, List.getD_append_right _ _ _ _ (by omega),
      List.getD_eq_default a _ (by omega), Nat.sub_sub]

/-- Writing what is there changes nothing. -/
theorem write_read (x : Xdr) (i n : ℕ) : x.write i (x.read i n) = x := by
  have hmem : (x.write i (x.read i n)).mem = x.mem := by
    funext j
    rcases lt_or_ge j i with hlt | hge
    · exact if_neg (by omega)
    rcases lt_or_ge j (i + n) with hlt | hge'
    · refine (if_pos hge).trans ?_
      rw [List.getD_eq_getElem _ _ (by rw [length_read]; omega)]
      simp [read, Nat.add_sub_cancel' hge]
    · refine (if_pos hge).trans ?_
      rw [List.getD_eq_default _ _ (by rw [length_read]; omega)]
  exact congrArg (fun mem => { x with mem := mem }) hmem

/-- Bytes put into a stream. -/
def put (x : Xdr) (b : List UInt8) : Xdr := (x.write x.x_private b).skip b.length

theorem put_append (x : Xdr) (a b : List UInt8) : (x.put a).put b = x.put (a ++ b) := by
  have hmem := write_append x x.x_private a b
  simp only [put, skip, write, mk.injEq, true_and, and_true, List.length_append] at hmem ⊢
  exact ⟨hmem, by omega, by omega⟩

theorem putbytes_eq (x : Xdr) (b : List UInt8) :
    x.putbytes b = if b.length ≤ x.x_handy then some (x.put b) else none := rfl

/-- What is put into space is put into the stream. -/
theorem write_skip (x : Xdr) {b : List UInt8} {n : ℕ} (h : b.length = n) :
    (x.skip n).write x.x_private b = x.put b := by
  subst h
  rfl

end Xdr

/-! ## Bytes -/

def longs (l : List UInt32) : List UInt8 := l.flatMap fun w => htonl w.toNat

@[simp] theorem longs_nil : longs [] = [] := rfl

theorem longs_cons (w : UInt32) (l : List UInt32) : longs (w :: l) = htonl w.toNat ++ longs l := rfl

@[simp] theorem length_longs (l : List UInt32) : (longs l).length = 4 * l.length := by
  induction l with
  | nil => rfl
  | cons w l ih =>
    rw [longs_cons, List.length_append, ih, length_htonl, List.length_cons]
    omega

theorem RNDUP_eq (n : ℕ) : RNDUP n = n + rndup n := by
  rw [RNDUP, rndup]
  split_ifs <;> omega

/-- Authentication, with the bytes up to a multiple of four. -/
def authBytes (oa : OpaqueAuth) (pad : List UInt8) : List UInt8 :=
  longs [oa.oa_flavor, UInt32.ofNat oa.oa_length] ++ (oa.oa_base ++ pad)

theorem length_authBytes {oa : OpaqueAuth} {pad : List UInt8}
    (h : pad.length = rndup oa.oa_length) : (authBytes oa pad).length = 8 + RNDUP oa.oa_length := by
  rw [authBytes, List.length_append, List.length_append, length_longs, h, RNDUP_eq]
  rfl

/-- A call, with what fills up its authentication. -/
def callBytes (c : CallMsg) (pad pad' : List UInt8) : List UInt8 :=
  longs [c.rm_xid, c.rm_direction, c.cb_rpcvers, c.cb_prog, c.cb_vers, c.cb_proc] ++
    (authBytes c.cb_cred pad ++ authBytes c.cb_verf pad')

/-- The zeros that fill up authentication. -/
def OpaqueAuth.zeros (oa : OpaqueAuth) : List UInt8 := List.replicate (rndup oa.oa_length) 0

/-! ## Encoding field by field -/

section Puts

variable {α β : Type}

/-- One thing after the other is put into a stream. -/
theorem putbytes_bind {k : Xdr → Option (β × Xdr)} {w : β} {a b : List UInt8}
    (hop : x.x_op = .encode)
    (hk : ∀ y : Xdr, y.x_op = .encode → 0 ≤ y.x_handy → k y = (y.putbytes b).map (w, ·)) :
    (x.putbytes a).bind k = (x.putbytes (a ++ b)).map (w, ·) := by
  have hleft : (x.put a).x_handy = x.x_handy - a.length := rfl
  rw [Xdr.putbytes_eq, Xdr.putbytes_eq, List.length_append]
  split_ifs with ha hab hab
  · rw [Option.bind_some, hk (x.put a) hop (by omega), Xdr.putbytes_eq, if_pos (by omega),
      Xdr.put_append]
  · rw [Option.bind_some, hk (x.put a) hop (by omega), Xdr.putbytes_eq, if_neg (by omega)]
  · omega
  · rfl

theorem puts_bind {f : Option (α × Xdr)} {k : α × Xdr → Option (β × Xdr)} {v : α} {w : β}
    {a b : List UInt8} (hop : x.x_op = .encode) (hf : f = (x.putbytes a).map (v, ·))
    (hk : ∀ y : Xdr, y.x_op = .encode → 0 ≤ y.x_handy → k (v, y) = (y.putbytes b).map (w, ·)) :
    f.bind k = (x.putbytes (a ++ b)).map (w, ·) := by
  rw [hf, Option.bind_map]
  exact putbytes_bind hop hk

theorem putbytes_nil (h : 0 ≤ x.x_handy) : x.putbytes [] = some x := by
  rw [Xdr.putbytes_eq, List.length_nil, if_pos (by exact_mod_cast h)]
  simp [Xdr.put, Xdr.skip]

theorem xdr_u_long_put (hop : x.x_op = .encode) (w : UInt32) :
    xdr_u_long x w = (x.putbytes (htonl w.toNat)).map (w, ·) := by
  rw [xdr_u_long, hop]
  rfl

theorem xdr_opaque_put (hop : x.x_op = .encode) (h₀ : 0 ≤ x.x_handy) (b : List UInt8) :
    xdr_opaque x b b.length =
      (x.putbytes (b ++ List.replicate (rndup b.length) 0)).map (b, ·) := by
  rw [ xdr_opaque, hop]
  split_ifs with hnil hround
  · obtain rfl := List.eq_nil_of_length_eq_zero hnil
    have hzeros : ([] ++ List.replicate (rndup ([] : List UInt8).length) 0 : List UInt8) = [] := rfl
    rw [hzeros, putbytes_nil h₀]
    rfl
  · refine putbytes_bind hop fun y _ hy => ?_
    rw [hround, List.replicate_zero, putbytes_nil hy]
    rfl
  · exact putbytes_bind hop fun y _ _ => rfl

theorem xdr_bytes_put (hop : x.x_op = .encode) {b : List UInt8} {maxsize : ℕ}
    (hle : b.length ≤ maxsize) (hmax : maxsize < 2 ^ 32) :
    xdr_bytes x b maxsize = (x.putbytes (htonl (UInt32.ofNat b.length).toNat ++
      (b ++ List.replicate (rndup b.length) 0))).map (b, ·) := by
  have hlen : (UInt32.ofNat b.length).toNat = b.length := by
    rw [UInt32.toNat_ofNat', Nat.mod_eq_of_lt (by omega)]
  refine puts_bind hop (xdr_u_long_put hop _) fun y hy hy₀ => ?_
  dsimp only
  rw [hlen, hy, if_neg (fun h => absurd h.1 (by omega)), if_neg nofun]
  exact xdr_opaque_put hy hy₀ b

theorem xdr_opaque_auth_put (hop : x.x_op = .encode) {oa : OpaqueAuth}
    (hle : oa.oa_length ≤ MAX_AUTH_BYTES) :
    xdr_opaque_auth x oa = (x.putbytes (authBytes oa oa.zeros)).map (oa, ·) := by
  have hbytes : authBytes oa oa.zeros = htonl oa.oa_flavor.toNat ++
      (htonl (UInt32.ofNat oa.oa_base.length).toNat ++
        (oa.oa_base ++ List.replicate (rndup oa.oa_base.length) 0) ++ []) := by
    simp [authBytes, longs_cons, OpaqueAuth.zeros, OpaqueAuth.oa_length]
  rw [hbytes]
  refine puts_bind hop (xdr_u_long_put hop _) fun y hy _ => ?_
  refine puts_bind hy (xdr_bytes_put hy hle (by decide)) fun z _ hz => ?_
  rw [putbytes_nil hz]
  rfl

theorem xdr_versions_put (hop : x.x_op = .encode) (v : Versions) :
    xdr_versions x v = (x.putbytes (longs [v.low, v.high])).map (v, ·) := by
  rw [longs_cons, longs_cons]
  refine puts_bind hop (xdr_u_long_put hop _) fun y hy _ => ?_
  refine puts_bind hy (xdr_u_long_put hy _) fun z _ hz => ?_
  rw [longs_nil, putbytes_nil hz]
  rfl

/-- Field by field, a call is put into a stream with zeros to fill it up. -/
theorem callmsgFields_put (hop : x.x_op = .encode) {c : CallMsg}
    (hcred : c.cb_cred.oa_length ≤ MAX_AUTH_BYTES) (hverf : c.cb_verf.oa_length ≤ MAX_AUTH_BYTES)
    (hdir : c.rm_direction = CALL) (hvers : c.cb_rpcvers = RPC_MSG_VERSION) :
    callmsgFields x c =
      (x.putbytes (callBytes c c.cb_cred.zeros c.cb_verf.zeros)).map (c, ·) := by
  have hbytes : callBytes c c.cb_cred.zeros c.cb_verf.zeros = htonl c.rm_xid.toNat ++
      (htonl c.rm_direction.toNat ++ (htonl c.cb_rpcvers.toNat ++ (htonl c.cb_prog.toNat ++
        (htonl c.cb_vers.toNat ++ (htonl c.cb_proc.toNat ++
          (authBytes c.cb_cred c.cb_cred.zeros ++
            (authBytes c.cb_verf c.cb_verf.zeros ++ []))))))) := by
    simp [callBytes, longs_cons]
  rw [hbytes]
  refine puts_bind hop (xdr_u_long_put hop _) fun y hy _ => ?_
  refine puts_bind hy (xdr_u_long_put hy _) fun y hy _ => ?_
  dsimp only
  rw [if_neg (not_not.2 hdir)]
  refine puts_bind hy (xdr_u_long_put hy _) fun y hy _ => ?_
  dsimp only
  rw [if_neg (not_not.2 hvers)]
  refine puts_bind hy (xdr_u_long_put hy _) fun y hy _ => ?_
  refine puts_bind hy (xdr_u_long_put hy _) fun y hy _ => ?_
  refine puts_bind hy (xdr_u_long_put hy _) fun y hy _ => ?_
  refine puts_bind hy (xdr_opaque_auth_put hy hcred) fun y hy _ => ?_
  refine puts_bind hy (xdr_opaque_auth_put hy hverf) fun y _ hy => ?_
  rw [putbytes_nil hy]
  rfl

end Puts

/-! ## Decoding field by field -/

/-- A stream to decode starts with these bytes. -/
structure Xdr.Has (x : Xdr) (b : List UInt8) : Prop where
  op : x.x_op = .decode
  le : (b.length : ℤ) ≤ x.x_handy
  read : x.read x.x_private b.length = b

theorem Xdr.has_append {a b : List UInt8} :
    x.Has (a ++ b) ↔ x.Has a ∧ (x.skip a.length).Has b := by
  constructor
  · rintro ⟨hop, hle, hread⟩
    rw [List.length_append] at hle hread
    rw [Xdr.read_add] at hread
    obtain ⟨ha, hb⟩ := List.append_inj hread (by simp)
    exact ⟨⟨hop, by omega, ha⟩, hop, by simp only [Xdr.skip]; omega, hb⟩
  · rintro ⟨⟨hop, ha, hread⟩, -, hb, hread'⟩
    simp only [Xdr.skip] at hb
    refine ⟨hop, by rw [List.length_append]; omega, ?_⟩
    rw [List.length_append, Xdr.read_add, hread]
    exact congrArg (a ++ ·) hread'

theorem Xdr.skip_skip (x : Xdr) (n k : ℕ) : (x.skip n).skip k = x.skip (n + k) := by
  simp only [Xdr.skip, Nat.add_assoc, Nat.cast_add, sub_add_eq_sub_sub]

@[simp] theorem Xdr.skip_zero (x : Xdr) : x.skip 0 = x := by
  simp [Xdr.skip]

theorem Xdr.op_skip (x : Xdr) (n : ℕ) : (x.skip n).x_op = x.x_op := rfl

@[simp] theorem Xdr.word_skip (x : Xdr) (n i : ℕ) : (x.skip n).word i = x.word i := rfl

theorem ofInt_ntohl (w : UInt32) : UInt32.ofInt (ntohl (htonl w.toNat)) = w := by
  have hlt := w.toNat_lt
  have hword : ((w.toNat : ℤ) % 2 ^ 32).toNat = w.toNat := by omega
  have hfold : (htonl w.toNat).foldl (fun (n : ℤ) x => n * 2 ^ 8 + x.toNat) (0 : ℕ) =
      w.toNat := by
    simp only [htonl, hword, List.foldl_cons, List.foldl_nil, UInt8.toNat_ofNat']
    omega
  have hmod : Int.bmod w.toNat (2 ^ 32) % 2 ^ 32 = w.toNat % 2 ^ 32 :=
    Int.bmod_emod (m := 2 ^ 32)
  rw [ntohl, hfold, UInt32.ofInt, toLong, hmod]
  exact (congrArg UInt32.ofNat hword).trans UInt32.ofNat_toNat

theorem getbytes_get {a b : List UInt8} {n : ℕ} (h : x.Has (a ++ b)) (hn : a.length = n) :
    x.getbytes n = some (a, x.skip n) ∧ (x.skip n).Has b := by
  obtain ⟨ha, hb⟩ := Xdr.has_append.1 h
  subst hn
  exact ⟨by rw [Xdr.getbytes, if_pos ha.le, ha.read], hb⟩

section Gets

variable {α β : Type}

/-- A word is taken from a stream that starts with it. -/
theorem xdr_u_long_get {w : UInt32} {b : List UInt8} (h : x.Has (htonl w.toNat ++ b))
    (old : UInt32) : xdr_u_long x old = some (w, x.skip 4) ∧ (x.skip 4).Has b := by
  obtain ⟨hw, hb⟩ := Xdr.has_append.1 h
  refine ⟨?_, hb⟩
  rw [xdr_u_long, hw.op]
  have hread : x.read x.x_private 4 = htonl w.toNat := hw.read
  have hle : (4 : ℤ) ≤ x.x_handy := hw.le
  simp only [Xdr.getlong, if_pos hle, Xdr.word, hread, ofInt_ntohl]

/-- What fills up opaque data is not looked at. -/
theorem xdr_opaque_get (cp : List UInt8) {b pad t : List UInt8} (h : x.Has (b ++ (pad ++ t)))
    (hpad : pad.length = rndup b.length) :
    xdr_opaque x cp b.length = some (b, x.skip (RNDUP b.length)) ∧
      (x.skip (RNDUP b.length)).Has t := by
  obtain ⟨hb, h'⟩ := getbytes_get h rfl
  obtain ⟨hp, ht⟩ := getbytes_get h' hpad
  rw [Xdr.skip_skip, ← RNDUP_eq] at hp ht
  refine ⟨?_, ht⟩
  rw [ xdr_opaque, h.op]
  split_ifs with hnil hround
  · obtain rfl := List.eq_nil_of_length_eq_zero hnil
    rw [show RNDUP ([] : List UInt8).length = 0 from rfl, Xdr.skip_zero]
  · simp only [hb, Option.bind_eq_bind, Option.bind_some]
    rw [RNDUP_eq, hround, Nat.add_zero]
  · simp only [hb, hp, Option.bind_eq_bind, Option.bind_some, Option.map_some]

theorem xdr_opaque_auth_get {oa : OpaqueAuth} {pad t : List UInt8}
    (h : x.Has (authBytes oa pad ++ t)) (hle : oa.oa_length ≤ MAX_AUTH_BYTES)
    (hpad : pad.length = rndup oa.oa_length) (old : OpaqueAuth) :
    xdr_opaque_auth x old = some (oa, x.skip (8 + RNDUP oa.oa_length)) ∧
      (x.skip (8 + RNDUP oa.oa_length)).Has t := by
  have hmax : MAX_AUTH_BYTES = 400 := rfl
  have hlen : (UInt32.ofNat oa.oa_length).toNat = oa.oa_length := by
    rw [UInt32.toNat_ofNat', Nat.mod_eq_of_lt (by omega)]
  simp only [authBytes, longs_cons, longs_nil, List.append_nil, List.append_assoc] at h
  obtain ⟨hflavor, h⟩ := xdr_u_long_get h old.oa_flavor
  obtain ⟨hlength, h⟩ := xdr_u_long_get h (UInt32.ofNat old.oa_base.length)
  have hop := h.op
  obtain ⟨hbase, h⟩ := xdr_opaque_get old.oa_base h hpad
  simp only [Xdr.skip_skip] at hlength hop hbase h
  refine ⟨?_, h⟩
  simp only [xdr_opaque_auth, xdr_enum, hflavor, xdr_bytes, xdr_u_int, hlength, hop, hlen,
    Option.bind_eq_bind, Option.bind_some]
  rw [if_neg (fun h => absurd h.1 (not_lt.2 hle)), if_neg nofun]
  simp only [OpaqueAuth.oa_length, hbase, Option.bind_some]

/-- Field by field, a call is taken from a stream. -/
theorem callmsgFields_get {c : CallMsg} {pad pad' : List UInt8}
    (h : x.Has (callBytes c pad pad')) (hcred : c.cb_cred.oa_length ≤ MAX_AUTH_BYTES)
    (hverf : c.cb_verf.oa_length ≤ MAX_AUTH_BYTES) (hpad : pad.length = rndup c.cb_cred.oa_length)
    (hpad' : pad'.length = rndup c.cb_verf.oa_length) (hdir : c.rm_direction = CALL)
    (hvers : c.cb_rpcvers = RPC_MSG_VERSION) (old : CallMsg) :
    callmsgFields x old = some (c, x.skip (callBytes c pad pad').length) := by
  have hlength : (callBytes c pad pad').length =
      24 + (8 + RNDUP c.cb_cred.oa_length) + (8 + RNDUP c.cb_verf.oa_length) := by
    rw [callBytes, List.length_append, List.length_append, length_longs, length_authBytes hpad,
      length_authBytes hpad', ← Nat.add_assoc]
    rfl
  rw [hlength]
  rw [callBytes, ← List.append_nil (authBytes c.cb_verf pad')] at h
  simp only [longs_cons, longs_nil, List.append_nil, List.append_assoc] at h
  obtain ⟨hxid, h⟩ := xdr_u_long_get h old.rm_xid
  obtain ⟨hdirection, h⟩ := xdr_u_long_get h old.rm_direction
  obtain ⟨hrpcvers, h⟩ := xdr_u_long_get h old.cb_rpcvers
  obtain ⟨hprog, h⟩ := xdr_u_long_get h old.cb_prog
  obtain ⟨hversion, h⟩ := xdr_u_long_get h old.cb_vers
  obtain ⟨hproc, h⟩ := xdr_u_long_get h old.cb_proc
  obtain ⟨hc, h⟩ := xdr_opaque_auth_get h hcred hpad old.cb_cred
  rw [← List.append_nil (authBytes c.cb_verf pad')] at h
  obtain ⟨hv, -⟩ := xdr_opaque_auth_get h hverf hpad' old.cb_verf
  simp only [callmsgFields, xdr_enum, hxid, hdirection, hrpcvers, hprog, hversion, hproc, hc, hv,
    Option.bind_eq_bind, Option.bind_some, if_neg (not_not.2 hdir), if_neg (not_not.2 hvers)]
  simp only [Xdr.skip_skip]

end Gets

/-! ## Replies -/

/-- A procedure for results, and the bytes it makes of them: it puts these into a stream, and
    takes the results from a stream that starts with them. -/
structure Results (ρ : Type) where
  proc : Xdr → ρ → Option (ρ × Xdr)
  bytes : ρ → List UInt8
  put : ∀ {x : Xdr}, x.x_op = .encode → 0 ≤ x.x_handy → ∀ r,
    proc x r = (x.putbytes (bytes r)).map (r, ·)
  get : ∀ {x : Xdr} {r : ρ}, x.Has (bytes r) → ∀ old,
    proc x old = some (r, x.skip (bytes r).length)

/-- Two accepted replies mean the same. -/
structure AcceptedReply.Same {ρ : Type} (a b : AcceptedReply ρ) : Prop where
  verf : a.ar_verf = b.ar_verf
  stat : a.ar_stat = b.ar_stat
  vers : a.ar_stat = PROG_MISMATCH → a.ar_vers = b.ar_vers
  results : a.ar_stat = SUCCESS → a.ar_results = b.ar_results

/-- Two rejected replies mean the same. -/
structure RejectedReply.Same (a b : RejectedReply) : Prop where
  stat : a.rj_stat = b.rj_stat
  vers : a.rj_stat = RPC_MISMATCH → a.rj_vers = b.rj_vers
  why : a.rj_stat = AUTH_ERROR → a.rj_why = b.rj_why

/-- Two replies mean the same: what is not in the arm they have does not matter. -/
structure ReplyMsg.Same {ρ : Type} (a b : ReplyMsg ρ) : Prop where
  xid : a.rm_xid = b.rm_xid
  direction : a.rm_direction = b.rm_direction
  stat : a.rp_stat = b.rp_stat
  acpt : a.rp_stat = MSG_ACCEPTED → a.rp_acpt.Same b.rp_acpt
  rjct : a.rp_stat = MSG_DENIED → a.rp_rjct.Same b.rp_rjct

section Replies

variable {ρ : Type} {R : Results ρ} {m : ReplyMsg ρ} {ar : AcceptedReply ρ} {rr : RejectedReply}

/-- A reply that can be sent. -/
def ReplyMsg.Sound (m : ReplyMsg ρ) : Prop :=
  m.rm_direction = REPLY ∧ (m.rp_stat = MSG_ACCEPTED ∨ m.rp_stat = MSG_DENIED ∧
    (m.rp_rjct.rj_stat = RPC_MISMATCH ∨ m.rp_rjct.rj_stat = AUTH_ERROR))

variable (R ar) in
/-- What follows the status of an accepted reply. -/
def armBytes : List UInt8 :=
  if ar.ar_stat = SUCCESS then R.bytes ar.ar_results
  else if ar.ar_stat = PROG_MISMATCH then longs [ar.ar_vers.low, ar.ar_vers.high]
  else []

variable (rr) in
def rejectedBytes : List UInt8 :=
  longs [rr.rj_stat] ++
    if rr.rj_stat = RPC_MISMATCH then longs [rr.rj_vers.low, rr.rj_vers.high]
    else longs [rr.rj_why]

variable (R m) in
def replyBytes : List UInt8 :=
  longs [m.rm_xid, m.rm_direction, m.rp_stat] ++
    if m.rp_stat = MSG_ACCEPTED then
      authBytes m.rp_acpt.ar_verf m.rp_acpt.ar_verf.zeros ++
        (longs [m.rp_acpt.ar_stat] ++ armBytes R m.rp_acpt)
    else rejectedBytes m.rp_rjct

theorem acceptedArm_put (hop : x.x_op = .encode) (h₀ : 0 ≤ x.x_handy) (ar : AcceptedReply ρ) :
    acceptedArm R.proc x ar = (x.putbytes (armBytes R ar)).map (ar, ·) := by
  rw [acceptedArm, armBytes]
  split_ifs
  · rw [R.put hop h₀, Option.map_map]
    rfl
  · rw [xdr_versions_put hop, Option.map_map]
    rfl
  · rw [putbytes_nil h₀]
    rfl

theorem acceptedArm_get (h : x.Has (armBytes R ar)) (old : AcceptedReply ρ)
    (hverf : old.ar_verf = ar.ar_verf) (hstat : old.ar_stat = ar.ar_stat) :
    ∃ ar', acceptedArm R.proc x old = some (ar', x.skip (armBytes R ar).length) ∧ ar'.Same ar := by
  have hne : SUCCESS ≠ PROG_MISMATCH := by decide
  rw [armBytes] at h ⊢
  split_ifs at h ⊢ with hs hv
  · rw [acceptedArm, if_pos (hstat.trans hs), R.get h]
    exact ⟨_, rfl, hverf, hstat, fun hv => absurd (hs.symm.trans (hstat.symm.trans hv)) hne,
      fun _ => rfl⟩
  · rw [longs_cons, longs_cons] at h
    obtain ⟨hlow, h⟩ := xdr_u_long_get h old.ar_vers.low
    obtain ⟨hhigh, -⟩ := xdr_u_long_get h old.ar_vers.high
    refine ⟨{ old with ar_vers := ar.ar_vers }, ?_, hverf, hstat, fun _ => rfl,
      fun hs' => absurd (hstat.symm.trans hs') hs⟩
    rw [acceptedArm, if_neg (hstat ▸ hs), if_pos (hstat.trans hv)]
    simp only [xdr_versions, hlow, hhigh, Option.bind_eq_bind, Option.bind_some, Option.map_some]
    rw [Xdr.skip_skip]
    rfl
  · rw [acceptedArm, if_neg (hstat ▸ hs), if_neg (hstat ▸ hv)]
    exact ⟨old, by rw [List.length_nil, Xdr.skip_zero], hverf, hstat,
      fun hv' => absurd (hstat.symm.trans hv') hv, fun hs' => absurd (hstat.symm.trans hs') hs⟩

theorem rejected_put (hop : x.x_op = .encode)
    (hs : rr.rj_stat = RPC_MISMATCH ∨ rr.rj_stat = AUTH_ERROR) :
    xdr_rejected_reply x rr = (x.putbytes (rejectedBytes rr)).map (rr, ·) := by
  have hne : AUTH_ERROR ≠ RPC_MISMATCH := by decide
  rw [rejectedBytes, longs_cons, longs_nil, List.append_nil]
  refine puts_bind hop (xdr_u_long_put hop _) fun y hy _ => ?_
  dsimp only
  rcases hs with hs | hs
  · rw [if_pos hs, if_pos hs, xdr_versions_put hy, Option.map_map]
    rfl
  · rw [if_neg (hs ▸ hne), if_pos hs, if_neg (hs ▸ hne), longs_cons, longs_nil, List.append_nil,
      xdr_enum, xdr_u_long_put hy, Option.map_map]
    rfl

theorem rejected_get (h : x.Has (rejectedBytes rr))
    (hs : rr.rj_stat = RPC_MISMATCH ∨ rr.rj_stat = AUTH_ERROR) (old : RejectedReply) :
    ∃ rr', xdr_rejected_reply x old = some (rr', x.skip (rejectedBytes rr).length) ∧
      rr'.Same rr := by
  have hne : AUTH_ERROR ≠ RPC_MISMATCH := by decide
  rw [rejectedBytes] at h ⊢
  rw [longs_cons, longs_nil, List.append_nil] at h ⊢
  obtain ⟨hstat, h⟩ := xdr_u_long_get h old.rj_stat
  simp only [xdr_rejected_reply, xdr_enum, hstat, Option.bind_eq_bind, Option.bind_some]
  rcases hs with hs | hs
  · rw [if_pos hs, longs_cons, longs_cons] at h
    obtain ⟨hlow, h⟩ := xdr_u_long_get h old.rj_vers.low
    obtain ⟨hhigh, -⟩ := xdr_u_long_get h old.rj_vers.high
    refine ⟨⟨rr.rj_stat, rr.rj_vers, old.rj_why⟩, ?_, rfl, fun _ => rfl,
      fun hw => absurd (hw.symm.trans hs) hne⟩
    rw [if_pos hs, if_pos hs]
    simp only [xdr_versions, hlow, hhigh, Option.bind_eq_bind, Option.bind_some, Option.map_some]
    rw [Xdr.skip_skip, Xdr.skip_skip]
    rfl
  · rw [if_neg (hs ▸ hne), longs_cons] at h
    obtain ⟨hwhy, -⟩ := xdr_u_long_get h old.rj_why
    refine ⟨⟨rr.rj_stat, old.rj_vers, rr.rj_why⟩, ?_, rfl,
      fun hv => absurd (hs.symm.trans hv) hne, fun _ => rfl⟩
    rw [if_neg (hs ▸ hne), if_pos hs, if_neg (hs ▸ hne)]
    simp only [hwhy, Option.map_some, Xdr.skip_skip]
    rfl

/-- Field by field, a reply is put into a stream with zeros to fill it up. -/
theorem replymsgFields_put (hop : x.x_op = .encode) (hs : m.Sound)
    (hle : m.rp_stat = MSG_ACCEPTED → m.rp_acpt.ar_verf.oa_length ≤ MAX_AUTH_BYTES) :
    replymsgFields R.proc x m = (x.putbytes (replyBytes R m)).map (m, ·) := by
  have hne : MSG_DENIED ≠ MSG_ACCEPTED := by decide
  obtain ⟨hdir, hstat⟩ := hs
  rw [replyBytes]
  simp only [longs_cons, longs_nil, List.append_nil, List.append_assoc]
  refine puts_bind hop (xdr_u_long_put hop _) fun y hy _ => ?_
  refine puts_bind hy (xdr_u_long_put hy _) fun y hy _ => ?_
  dsimp only
  rw [if_pos hdir]
  refine puts_bind hy (xdr_u_long_put hy _) fun y hy _ => ?_
  dsimp only
  rcases hstat with hstat | ⟨hstat, hwhy⟩
  · rw [if_pos hstat, if_pos hstat]
    have hacpt : xdr_accepted_reply R.proc y m.rp_acpt =
        (y.putbytes (authBytes m.rp_acpt.ar_verf m.rp_acpt.ar_verf.zeros ++
          (htonl m.rp_acpt.ar_stat.toNat ++ armBytes R m.rp_acpt))).map (m.rp_acpt, ·) := by
      refine puts_bind hy (xdr_opaque_auth_put hy (hle hstat)) fun y hy _ => ?_
      exact puts_bind hy (xdr_u_long_put hy _) fun y hy hy₀ => acceptedArm_put hy hy₀ _
    rw [hacpt, Option.map_map]
    rfl
  · rw [if_neg (hstat ▸ hne), if_pos hstat, if_neg (hstat ▸ hne), rejected_put hy hwhy,
      Option.map_map]
    rfl

/-- Field by field, a reply is taken from a stream. -/
theorem replymsgFields_get (h : x.Has (replyBytes R m)) (hs : m.Sound)
    (hle : m.rp_stat = MSG_ACCEPTED → m.rp_acpt.ar_verf.oa_length ≤ MAX_AUTH_BYTES)
    (old : ReplyMsg ρ) :
    ∃ m', replymsgFields R.proc x old = some (m', x.skip (replyBytes R m).length) ∧
      m'.Same m := by
  have hne : MSG_DENIED ≠ MSG_ACCEPTED := by decide
  obtain ⟨hdir, hstat⟩ := hs
  rw [replyBytes] at h ⊢
  rw [List.length_append]
  simp only [longs_cons, longs_nil, List.append_nil, List.append_assoc] at h
  obtain ⟨hxid, h⟩ := xdr_u_long_get h old.rm_xid
  obtain ⟨hdirection, h⟩ := xdr_u_long_get h old.rm_direction
  obtain ⟨hrstat, h⟩ := xdr_u_long_get h old.rp_stat
  simp only [replymsgFields, xdr_union, xdr_enum, hxid, hdirection, hrstat, Option.bind_eq_bind,
    Option.bind_some, if_pos hdir]
  rcases hstat with hstat | ⟨hstat, hwhy⟩
  · rw [if_pos hstat] at h ⊢
    obtain ⟨hverf, h⟩ := xdr_opaque_auth_get h (hle hstat) List.length_replicate
      old.rp_acpt.ar_verf
    obtain ⟨hast, h⟩ := xdr_u_long_get h old.rp_acpt.ar_stat
    obtain ⟨ar, har, hsame⟩ := acceptedArm_get h { old.rp_acpt with
      ar_verf := m.rp_acpt.ar_verf, ar_stat := m.rp_acpt.ar_stat } rfl rfl
    refine ⟨⟨m.rm_xid, m.rm_direction, m.rp_stat, ar, old.rp_rjct⟩, ?_, rfl, rfl, rfl,
      fun _ => hsame, fun hd => absurd (hd.symm.trans hstat) hne⟩
    rw [if_pos hstat]
    simp only [xdr_accepted_reply, xdr_enum, hverf, hast, har, Option.bind_eq_bind,
      Option.bind_some, Option.map_some]
    have hzeros : m.rp_acpt.ar_verf.zeros.length = rndup m.rp_acpt.ar_verf.oa_length :=
      List.length_replicate
    rw [List.length_append, List.length_append, length_authBytes hzeros]
    simp only [Xdr.skip_skip, ← Nat.add_assoc]
    rfl
  · have hden : ¬m.rp_stat = MSG_ACCEPTED := fun ha => hne (hstat.symm.trans ha)
    rw [if_neg hden] at h ⊢
    obtain ⟨rr, hrr, hsame⟩ := rejected_get h hwhy old.rp_rjct
    refine ⟨⟨m.rm_xid, m.rm_direction, m.rp_stat, old.rp_acpt, rr⟩, ?_, rfl, rfl, rfl,
      fun ha => absurd (hstat.symm.trans ha) hne, fun _ => hsame⟩
    rw [if_neg hden, if_pos hstat, hrr]
    simp only [Option.map_some, Xdr.skip_skip]
    rfl

end Replies

/-! ## Encoding into space -/

theorem read_write_after (x : Xdr) {i j : ℕ} {b : List UInt8} (h : i + b.length ≤ j) (n : ℕ) :
    (x.write i b).read j n = x.read j n := by
  refine List.map_congr_left fun k _ => ?_
  refine (if_pos (by omega)).trans (List.getD_eq_default _ _ (by omega))

theorem putLongs_eq (x : Xdr) (buf : ℕ) (l : List UInt32) :
    putLongs x buf l = (x.write buf (longs l), buf + 4 * l.length) := by
  induction l generalizing x buf with
  | nil => rw [putLongs, longs_nil, Xdr.write_nil, List.length_nil, Nat.mul_zero, Nat.add_zero]
  | cons w l ih =>
    have happend := x.write_append buf (htonl w.toNat) (longs l)
    rw [length_htonl] at happend
    rw [putLongs, ih, happend, longs_cons, List.length_cons]
    congr 1
    omega

/-- What fills up authentication in space is what lies there. -/
theorem putAuth_eq (x : Xdr) (buf : ℕ) (oa : OpaqueAuth) :
    putAuth x buf oa =
      (x.write buf (authBytes oa (x.read (buf + 8 + oa.oa_length) (rndup oa.oa_length))),
        buf + (8 + RNDUP oa.oa_length)) := by
  -- what lies there can as well be written
  have hpad : x.write buf (authBytes oa (x.read (buf + 8 + oa.oa_length) (rndup oa.oa_length))) =
      x.write buf (longs [oa.oa_flavor, UInt32.ofNat oa.oa_length] ++ oa.oa_base) := by
    have hlen : (longs [oa.oa_flavor, UInt32.ofNat oa.oa_length] ++ oa.oa_base).length =
        8 + oa.oa_length := by
      rw [List.length_append, length_longs]
      rfl
    rw [authBytes, ← List.append_assoc, ← Xdr.write_append, hlen, ← Nat.add_assoc,
      ← read_write_after x (i := buf) (by rw [hlen, Nat.add_assoc]), Xdr.write_read]
  rw [putAuth, putLongs_eq, hpad]
  dsimp only
  split_ifs with hne
  · have happend := x.write_append buf (longs [oa.oa_flavor, UInt32.ofNat oa.oa_length]) oa.oa_base
    rw [length_longs] at happend
    rw [List.length_cons, List.length_cons, List.length_nil] at happend ⊢
    rw [happend, Nat.add_assoc]
  · have hnil : oa.oa_base = [] := List.eq_nil_of_length_eq_zero (not_not.1 hne)
    rw [hnil, List.append_nil, not_not.1 hne]
    rfl

/-- What lies where the authentication of a call will be filled up. -/
def Xdr.credPad (x : Xdr) (c : CallMsg) : List UInt8 :=
  x.read (x.x_private + 24 + 8 + c.cb_cred.oa_length) (rndup c.cb_cred.oa_length)
@[inherit_doc Xdr.credPad]
def Xdr.verfPad (x : Xdr) (c : CallMsg) : List UInt8 :=
  x.read (x.x_private + 24 + (8 + RNDUP c.cb_cred.oa_length) + 8 + c.cb_verf.oa_length)
    (rndup c.cb_verf.oa_length)

/-- The space a call asks for. -/
def CallMsg.space (c : CallMsg) : ℕ :=
  8 * 4 + RNDUP c.cb_cred.oa_length + 2 * 4 + RNDUP c.cb_verf.oa_length

theorem length_callBytes {c : CallMsg} {pad pad' : List UInt8}
    (h : pad.length = rndup c.cb_cred.oa_length) (h' : pad'.length = rndup c.cb_verf.oa_length) :
    (callBytes c pad pad').length = c.space := by
  rw [callBytes, List.length_append, List.length_append, length_authBytes h, length_authBytes h',
    length_longs, CallMsg.space]
  simp only [List.length_cons, List.length_nil]
  omega

/-- In space a call is put into the stream with what lies there to fill it up. -/
theorem callmsgPut_eq (x : Xdr) {c : CallMsg} (hdir : c.rm_direction = CALL)
    (hvers : c.cb_rpcvers = RPC_MSG_VERSION) :
    callmsgPut (x.skip c.space) x.x_private c =
      some (c, x.put (callBytes c (x.credPad c) (x.verfPad c))) := by
  have hcred : (authBytes c.cb_cred (x.credPad c)).length = 8 + RNDUP c.cb_cred.oa_length :=
    length_authBytes (Xdr.length_read _ _ _)
  have hhdr : (longs [c.rm_xid, c.rm_direction, c.cb_rpcvers, c.cb_prog, c.cb_vers,
      c.cb_proc]).length = 24 := length_longs _
  have hlen : (callBytes c (x.credPad c) (x.verfPad c)).length = c.space :=
    length_callBytes (Xdr.length_read _ _ _) (Xdr.length_read _ _ _)
  rw [callmsgPut, if_neg (not_not.2 hdir), if_neg (not_not.2 hvers)]
  simp only [putLongs_eq, putAuth_eq, ← Xdr.write_skip x hlen]
  rw [callBytes]
  have hlast (pad : List UInt8) (h : pad.length = rndup c.cb_cred.oa_length) (i n : ℕ)
      (hi : x.x_private + 24 + (8 + RNDUP c.cb_cred.oa_length) ≤ i) :
      (((x.skip c.space).write x.x_private (longs [c.rm_xid, c.rm_direction, c.cb_rpcvers,
        c.cb_prog, c.cb_vers, c.cb_proc])).write (x.x_private + 24)
          (authBytes c.cb_cred pad)).read i n = x.read i n :=
    (read_write_after _ (by rw [length_authBytes h]; exact hi) n).trans
      (read_write_after (x.skip c.space) (by rw [hhdr]; omega) n)
  have hfirst (i n : ℕ) (hi : x.x_private + 24 ≤ i) :
      ((x.skip c.space).write x.x_private (longs [c.rm_xid, c.rm_direction, c.cb_rpcvers, c.cb_prog,
        c.cb_vers, c.cb_proc])).read i n = x.read i n :=
    read_write_after (x.skip c.space) (by rw [hhdr]; exact hi) n
  generalize longs [c.rm_xid, c.rm_direction, c.cb_rpcvers, c.cb_prog, c.cb_vers, c.cb_proc] = hdr
    at hhdr hlast hfirst ⊢
  simp only [List.length_cons, List.length_nil, Nat.zero_add, Nat.reduceAdd, Nat.reduceMul]
  rw [hfirst _ _ (by omega), hlast _ (Xdr.length_read _ _ _) _ _ (by omega)]
  have happend := (x.skip c.space).write_append x.x_private hdr
    (authBytes c.cb_cred (x.credPad c) ++ authBytes c.cb_verf (x.verfPad c))
  rw [hhdr, ← Xdr.write_append, hcred] at happend
  rw [← happend]
  rfl

section Replies

variable {ρ : Type} {R : Results ρ} {m : ReplyMsg ρ}

/-- The space a reply asks for. -/
def ReplyMsg.space (m : ReplyMsg ρ) : ℕ := 6 * 4 + m.rp_acpt.ar_verf.oa_length

/-- An accepted reply up to its status, with what fills up its verifier. -/
def replyHead (m : ReplyMsg ρ) (pad : List UInt8) : List UInt8 :=
  longs [m.rm_xid, m.rm_direction, m.rp_stat] ++
    (authBytes m.rp_acpt.ar_verf pad ++ longs [m.rp_acpt.ar_stat])

/-- In space what comes before the results is put into the memory as it should be; but the
    stream goes on where the space ends. -/
theorem replymsgPut_eq (x : Xdr) (m : ReplyMsg ρ) :
    ∃ pad : List UInt8, pad.length = rndup m.rp_acpt.ar_verf.oa_length ∧
      replymsgPut R.proc (x.skip m.space) x.x_private m =
        (acceptedArm R.proc ((x.skip m.space).write x.x_private (replyHead m pad))
          m.rp_acpt).map fun (ar, x) => ({ m with rp_acpt := ar }, x) := by
  obtain ⟨pad, hpad⟩ : ∃ pad, pad = ((x.skip m.space).write x.x_private
      (longs [m.rm_xid, m.rm_direction, m.rp_stat])).read (x.x_private + 12 + 8 +
        m.rp_acpt.ar_verf.oa_length) (rndup m.rp_acpt.ar_verf.oa_length) := ⟨_, rfl⟩
  have hlen : pad.length = rndup m.rp_acpt.ar_verf.oa_length := by rw [hpad, Xdr.length_read]
  have hhdr : (longs [m.rm_xid, m.rm_direction, m.rp_stat]).length = 12 := length_longs _
  have happend := (x.skip m.space).write_append x.x_private
    (longs [m.rm_xid, m.rm_direction, m.rp_stat])
    (authBytes m.rp_acpt.ar_verf pad ++ longs [m.rp_acpt.ar_stat])
  rw [hhdr, ← Xdr.write_append, length_authBytes hlen] at happend
  refine ⟨pad, hlen, ?_⟩
  rw [replymsgPut, replyHead, ← happend]
  simp only [putLongs_eq, putAuth_eq, List.length_cons, List.length_nil, Nat.zero_add,
    Nat.reduceAdd, Nat.reduceMul, ← hpad]

/-- Where the verifier needs nothing to fill it up, space makes no difference. -/
theorem replymsgPut_of_dvd (hop : x.x_op = .encode) (hroom : m.space ≤ x.x_handy)
    (hdvd : 4 ∣ m.rp_acpt.ar_verf.oa_length) (hstat : m.rp_stat = MSG_ACCEPTED) :
    replymsgPut R.proc (x.skip m.space) x.x_private m =
      (x.putbytes (replyBytes R m)).map (m, ·) := by
  obtain ⟨pad, hpad, hput⟩ := replymsgPut_eq (R := R) x m
  have hzero : rndup m.rp_acpt.ar_verf.oa_length = 0 := by
    rw [rndup, if_neg (by omega)]
  obtain rfl : pad = [] := List.eq_nil_of_length_eq_zero (hpad.trans hzero)
  have hzeros : m.rp_acpt.ar_verf.zeros = [] := by rw [OpaqueAuth.zeros, hzero, List.replicate_zero]
  have hlen : (replyHead m []).length = m.space := by
    rw [replyHead, List.length_append, List.length_append, length_authBytes hpad, length_longs,
      length_longs, RNDUP_eq, hzero, ReplyMsg.space]
    simp only [List.length_cons, List.length_nil]
    omega
  have hbytes : replyBytes R m = replyHead m [] ++ armBytes R m.rp_acpt := by
    rw [replyBytes, if_pos hstat, hzeros, replyHead]
    simp only [List.append_assoc]
  have hop' : (x.put (replyHead m [])).x_op = .encode := hop
  have hleft : 0 ≤ (x.put (replyHead m [])).x_handy := by
    have : (x.put (replyHead m [])).x_handy = x.x_handy - (replyHead m []).length := rfl
    omega
  have hbind := putbytes_bind (w := m)
    (k := fun y => (y.putbytes (armBytes R m.rp_acpt)).map (m, ·)) (a := replyHead m []) hop
    fun y _ _ => rfl
  rw [hput, Xdr.write_skip x hlen, acceptedArm_put hop' hleft, Option.map_map, hbytes, ← hbind,
    Xdr.putbytes_eq x, hlen, if_pos hroom]
  rfl

end Replies

/-! ## Decoding from space -/

section Decode

variable (hop : x.x_op = .decode)
include hop

omit hop in
theorem gets_bind {α β : Type} {f : Option α} {a : α} {k : α → Option β} (h : f = some a) :
    (f >>= k) = k a := by
  rw [h]
  rfl

theorem xdr_u_long_skip {n : ℕ} (h : n + 4 ≤ x.x_handy) (w : UInt32) :
    xdr_u_long (x.skip n) w = some (x.word (x.x_private + n), x.skip (n + 4)) := by
  have hleft : (4 : ℤ) ≤ (x.skip n).x_handy := by
    have : (x.skip n).x_handy = x.x_handy - n := rfl
    omega
  have hop' : (x.skip n).x_op = .decode := hop
  rw [xdr_u_long, hop', ← Xdr.skip_skip]
  exact if_pos hleft

theorem xdr_opaque_eq (cp : List UInt8) {n : ℕ} (h : 0 ≤ x.x_handy) :
    xdr_opaque x cp n =
      if RNDUP n ≤ x.x_handy then some (x.read x.x_private n, x.skip (RNDUP n)) else none := by
  have hround := RNDUP_eq n
  have hleft : (x.skip n).x_handy = x.x_handy - n := rfl
  rw [ xdr_opaque, hop]
  by_cases hzero : n = 0
  · have hnil : RNDUP 0 = 0 := rfl
    rw [if_pos hzero, hzero, hnil, if_pos (by omega), Xdr.skip_zero]
    rfl
  rw [if_neg hzero]
  by_cases hn : (n : ℤ) ≤ x.x_handy
  · simp only [Xdr.getbytes, if_pos hn, Option.bind_eq_bind, Option.bind_some]
    by_cases hrnd : rndup n = 0
    · rw [if_pos hrnd, if_pos (by omega), hround, hrnd, Nat.add_zero]
    · rw [if_neg hrnd, hleft, Xdr.skip_skip, ← hround]
      by_cases hle : (RNDUP n : ℤ) ≤ x.x_handy
      · rw [if_pos hle, if_pos (by omega)]
        rfl
      · rw [if_neg hle, if_neg (by omega)]
        rfl
  · simp only [Xdr.getbytes, if_neg hn]
    rw [if_neg (by omega)]
    rfl

/-- Space makes no difference for the bytes of authentication. -/
theorem getBody_eq {n : ℕ} (h : 0 ≤ x.x_handy) :
    getBody x n = if n > MAX_AUTH_BYTES then none
      else if RNDUP n ≤ x.x_handy then some (x.read x.x_private n, x.skip (RNDUP n)) else none := by
  rw [getBody]
  by_cases hzero : n = 0
  · have hnil : RNDUP 0 = 0 := rfl
    rw [if_neg (not_not.2 hzero), hzero, if_neg (by decide), hnil, if_pos (by omega), Xdr.skip_zero]
    rfl
  rw [if_pos hzero, xdr_opaque_eq hop _ h, Xdr.inline]
  by_cases hin : (RNDUP n : ℤ) ≤ x.x_handy ∧ x.contiguous x.x_private (RNDUP n) = true
  · rw [if_pos hin, if_pos hin.1]
    rfl
  · rw [if_neg hin]

theorem getBody_some {n : ℕ} (h : 0 ≤ x.x_handy) {b : List UInt8} {y : Xdr}
    (hb : getBody x n = some (b, y)) :
    n ≤ MAX_AUTH_BYTES ∧ RNDUP n ≤ x.x_handy ∧ y = x.skip (RNDUP n) := by
  rw [getBody_eq hop h] at hb
  split_ifs at hb with hmax hle
  obtain ⟨-, rfl⟩ := Prod.mk.inj (Option.some.inj hb)
  exact ⟨not_lt.1 hmax, hle, rfl⟩

omit hop in
theorem xdr_bytes_of_size {y : Xdr} {w : UInt32} {cp : List UInt8} {maxsize : ℕ}
    (h : xdr_u_int x (UInt32.ofNat cp.length) = some (w, y)) (hop : y.x_op = .decode) :
    xdr_bytes x cp maxsize = if w.toNat > maxsize then none else xdr_opaque y cp w.toNat := by
  have hfree : ¬y.x_op = .free := by
    rw [hop]
    decide
  rw [xdr_bytes, h, Option.bind_eq_bind, Option.bind_some]
  dsimp only
  rw [if_neg hfree]
  exact if_congr (and_iff_left hfree) rfl rfl

omit hop in
theorem xdr_opaque_auth_of_words {y z : Xdr} {v w : UInt32} {old : OpaqueAuth}
    (hv : xdr_u_long x old.oa_flavor = some (v, y))
    (hw : xdr_u_int y (UInt32.ofNat old.oa_base.length) = some (w, z)) (hop : z.x_op = .decode)
    (h : 0 ≤ z.x_handy) :
    xdr_opaque_auth x old = (getBody z w.toNat).map fun (b, t) => (⟨v, b⟩, t) := by
  rw [xdr_opaque_auth, xdr_enum, hv, Option.bind_eq_bind, Option.bind_some]
  dsimp only
  rw [xdr_bytes_of_size hw hop, getBody_eq hop h, xdr_opaque_eq hop _ h]
  split_ifs <;> rfl

theorem xdr_opaque_auth_skip {n : ℕ} (h : n + 8 ≤ x.x_handy) (old : OpaqueAuth) :
    xdr_opaque_auth (x.skip n) old =
      (getBody (x.skip (n + 8)) (x.word (x.x_private + (n + 4))).toNat).map fun (b, y) =>
        (⟨x.word (x.x_private + n), b⟩, y) := by
  have hleft : (x.skip (n + 8)).x_handy = x.x_handy - (n + 8) := by
    simp only [Xdr.skip, Nat.cast_add, Nat.cast_ofNat]
  exact xdr_opaque_auth_of_words (xdr_u_long_skip hop (by omega) _)
    (xdr_u_long_skip hop (by omega : ((n + 4 : ℕ) : ℤ) + 4 ≤ x.x_handy) _) hop (by omega)

theorem xdr_u_long_some {old v : UInt32} {y : Xdr} (h : xdr_u_long x old = some (v, y)) :
    4 ≤ x.x_handy ∧ v = x.word x.x_private ∧ y = x.skip 4 := by
  rw [xdr_u_long, hop] at h
  simp only [Xdr.getlong] at h
  split_ifs at h with hle
  obtain ⟨rfl, rfl⟩ := Prod.mk.inj (Option.some.inj h)
  exact ⟨hle, rfl, rfl⟩

omit hop in
theorem getAuth_of_words (buf : ℕ) {oa : OpaqueAuth} {y z : Xdr} {v w : UInt32}
    (h : x.inline (2 * 4) = some (buf, z) ∧ v = z.word buf ∧ w = z.word (buf + 4) ∨
      x.inline (2 * 4) = none ∧ xdr_u_long x oa.oa_flavor = some (v, y) ∧
        xdr_u_long y (UInt32.ofNat oa.oa_length) = some (w, z)) :
    getAuth x oa = (getBody z w.toNat).map fun (b, t) => (⟨v, b⟩, t) := by
  rcases h with ⟨hin, rfl, rfl⟩ | ⟨hin, hv, hw⟩
  · rw [getAuth, hin]
    dsimp only
    rw [Option.bind_eq_bind, Option.bind_some]
    cases getBody z (z.word (buf + 4)).toNat <;> rfl
  · rw [getAuth, hin]
    dsimp only
    rw [xdr_enum, hv, Option.bind_eq_bind, Option.bind_some, xdr_u_int, hw,
      Option.bind_eq_bind, Option.bind_some, Option.bind_some]
    dsimp only
    cases getBody z w.toNat <;> rfl

/-- Nor does it for the flavor and the length. -/
theorem getAuth_eq (oa : OpaqueAuth) : getAuth x oa = xdr_opaque_auth x oa := by
  by_cases hin : (2 * 4 : ℕ) ≤ x.x_handy ∧ x.contiguous x.x_private (2 * 4) = true
  · have hauth := xdr_opaque_auth_skip hop (n := 0) (by have := hin.1; omega) oa
    rw [Xdr.skip_zero] at hauth
    exact (getAuth_of_words x.x_private (y := x) (.inl ⟨if_pos hin, rfl, rfl⟩)).trans hauth.symm
  have hnone : x.inline (2 * 4) = none := if_neg hin
  cases hv : xdr_u_long x oa.oa_flavor with
  | none => rw [getAuth, xdr_opaque_auth, hnone, xdr_enum, hv]; rfl
  | some r =>
    obtain ⟨v, y⟩ := r
    obtain ⟨-, -, rfl⟩ := xdr_u_long_some hop hv
    cases hw : xdr_u_long (x.skip 4) (UInt32.ofNat oa.oa_length) with
    | none =>
      have hbytes : xdr_bytes (x.skip 4) oa.oa_base MAX_AUTH_BYTES = none := by
        rw [xdr_bytes, xdr_u_int]
        exact congrArg (Option.bind · _) hw
      have hgeneric : xdr_opaque_auth x oa = none := by
        rw [xdr_opaque_auth, xdr_enum, hv, Option.bind_eq_bind, Option.bind_some]
        exact congrArg (Option.bind · _) hbytes
      rw [hgeneric, getAuth, hnone]
      dsimp only
      rw [xdr_enum, hv, Option.bind_eq_bind, Option.bind_some, xdr_u_int, hw]
      rfl
    | some r =>
      obtain ⟨w, z⟩ := r
      obtain ⟨hle, -, rfl⟩ := xdr_u_long_some (x := x.skip 4) hop hw
      have hleft : ((x.skip 4).skip 4).x_handy = (x.skip 4).x_handy - 4 := rfl
      exact (getAuth_of_words 0 (.inr ⟨hnone, hv, hw⟩)).trans
        (xdr_opaque_auth_of_words hv hw hop (by omega)).symm

theorem callmsgGet_eq (h : 32 ≤ x.x_handy) (c : CallMsg) :
    callmsgGet (x.skip 32) x.x_private c = callmsgFields x c := by
  have hword (n : ℕ) (w : UInt32) (hn : n + 4 ≤ 32) :=
    xdr_u_long_skip hop (by omega : (n : ℤ) + 4 ≤ x.x_handy) w
  have hxid := hword 0 c.rm_xid (by omega)
  have hdirection : xdr_enum (x.skip 4) c.rm_direction =
      some (x.word (x.x_private + 4), x.skip 8) := hword 4 _ (by omega)
  have hrpcvers := hword 8 c.cb_rpcvers (by omega)
  have hprog := hword 12 c.cb_prog (by omega)
  have hvers := hword 16 c.cb_vers (by omega)
  have hproc := hword 20 c.cb_proc (by omega)
  have hcred := xdr_opaque_auth_skip hop (n := 24) (by omega) c.cb_cred
  rw [Xdr.skip_zero, Nat.add_zero] at hxid
  -- what is left of the stream is not to be looked into
  obtain ⟨y, hy⟩ : ∃ y, y = x.skip 32 := ⟨_, rfl⟩
  have hleft : 0 ≤ y.x_handy := by
    have : y.x_handy = x.x_handy - 32 := by rw [hy]; rfl
    omega
  have hop' : y.x_op = .decode := by rw [hy]; exact hop
  have hwords (i : ℕ) : y.word i = x.word i := by rw [hy, Xdr.word_skip]
  rw [← hy] at hcred ⊢
  refine Eq.symm ((gets_bind hxid).trans ((gets_bind hdirection).trans ?_))
  rw [callmsgGet]
  simp only [hwords]
  refine if_congr Iff.rfl rfl ((gets_bind hrpcvers).trans (if_congr Iff.rfl rfl ?_))
  refine (gets_bind hprog).trans ((gets_bind hvers).trans ((gets_bind hproc).trans ?_))
  dsimp only
  rw [hcred]
  cases hb : getBody y (x.word (x.x_private + 28)).toNat with
  | none => rfl
  | some r =>
    obtain ⟨b, z⟩ := r
    obtain ⟨-, -, rfl⟩ := getBody_some hop' hleft hb
    refine (gets_bind rfl).trans (Eq.trans ?_ (gets_bind rfl).symm)
    dsimp only
    rw [getAuth_eq ((y.op_skip _).trans hop')]

/-- A call is decoded the same way, from space or field by field. -/
theorem xdr_callmsg_decode (c : CallMsg) : xdr_callmsg x c = callmsgFields x c := by
  rw [xdr_callmsg, hop]
  dsimp only
  rw [Xdr.inline]
  split_ifs with hin
  · exact callmsgGet_eq hop hin.1 c
  · rfl

/-- A word that the stream does not have. -/
theorem xdr_u_long_none (h : x.x_handy < 4) (w : UInt32) : xdr_u_long x w = none := by
  rw [xdr_u_long, hop]
  exact if_neg (by omega)

/-- The verifier of a reply is there, or not. -/
theorem getAuth_skip {n : ℕ} (h : n ≤ x.x_handy) (old : OpaqueAuth) :
    (∃ verf, getAuth (x.skip n) old = some (verf,
        x.skip (n + 8 + RNDUP (x.word (x.x_private + (n + 4))).toNat))) ∧
      (x.word (x.x_private + (n + 4))).toNat ≤ MAX_AUTH_BYTES ∧
      n + 8 + RNDUP (x.word (x.x_private + (n + 4))).toNat ≤ x.x_handy ∨
    getAuth (x.skip n) old = none ∧ ¬((x.word (x.x_private + (n + 4))).toNat ≤ MAX_AUTH_BYTES ∧
      n + 8 + RNDUP (x.word (x.x_private + (n + 4))).toNat ≤ x.x_handy) := by
  have hn : (x.skip n).x_handy = x.x_handy - n := rfl
  have hleft : (x.skip (n + 8)).x_handy = x.x_handy - (n + 8) := by
    simp only [Xdr.skip, Nat.cast_add, Nat.cast_ofNat]
  rw [getAuth_eq (x := x.skip n) hop]
  by_cases h8 : (n : ℤ) + 8 ≤ x.x_handy
  · rw [xdr_opaque_auth_skip hop h8, getBody_eq (x := x.skip (n + 8)) hop (by omega), hleft]
    split_ifs with hmax hle
    · exact .inr ⟨rfl, fun h => absurd h.1 (not_le.2 hmax)⟩
    · rw [Option.map_some, Xdr.skip_skip]
      exact .inl ⟨⟨_, rfl⟩, not_lt.1 hmax, by omega⟩
    · exact .inr ⟨rfl, fun h => absurd h.2 (by omega)⟩
  · refine .inr ⟨?_, fun h => absurd h.2 (by omega)⟩
    cases hv : xdr_u_long (x.skip n) old.oa_flavor with
    | none => rw [xdr_opaque_auth, xdr_enum, hv]; rfl
    | some r =>
      obtain ⟨v, y⟩ := r
      obtain ⟨-, -, rfl⟩ := xdr_u_long_some (x := x.skip n) hop hv
      have hleft' : ((x.skip n).skip 4).x_handy = (x.skip n).x_handy - 4 := rfl
      have hbytes : xdr_bytes ((x.skip n).skip 4) old.oa_base MAX_AUTH_BYTES = none := by
        rw [xdr_bytes, xdr_u_int, xdr_u_long_none (x := (x.skip n).skip 4) hop (by omega)]
        rfl
      exact (gets_bind hv).trans (congrArg (Option.bind · _) hbytes)

end Decode

section Replies

variable {ρ : Type} {proc : Xdr → ρ → Option (ρ × Xdr)}

/-- Where the status of a reply is, if its verifier is there. -/
def Xdr.toStatus (x : Xdr) : ℕ := 20 + RNDUP (x.word (x.x_private + 16)).toNat

/-- The bytes of a reply that is accepted, and ends before its status. -/
def Xdr.Cut (x : Xdr) : Prop :=
  x.word (x.x_private + 4) = REPLY ∧ x.word (x.x_private + 8) = MSG_ACCEPTED ∧
    (x.word (x.x_private + 16)).toNat ≤ MAX_AUTH_BYTES ∧ x.toStatus ≤ x.x_handy ∧
    x.x_handy < x.toStatus + 4

/-- With the status that was there before, the decoder gets to the end. -/
def GoesOn (proc : Xdr → ρ → Option (ρ × Xdr)) (x : Xdr) (old : ReplyMsg ρ) : Prop :=
  old.rp_acpt.ar_stat ≠ PROG_MISMATCH ∧ (old.rp_acpt.ar_stat = SUCCESS →
    (proc (x.skip x.toStatus).ranOut old.rp_acpt.ar_results).isSome = true)

variable (proc) in
theorem acceptedArm_ranOut (hop : x.x_op = .decode) (h : x.x_handy < 4) (ar : AcceptedReply ρ) :
    acceptedArm proc x.ranOut ar = none ↔ ¬(ar.ar_stat ≠ PROG_MISMATCH ∧
      (ar.ar_stat = SUCCESS → (proc x.ranOut ar.ar_results).isSome = true)) := by
  have hne : SUCCESS ≠ PROG_MISMATCH := by decide
  rw [acceptedArm]
  split_ifs with hs hm
  · rw [Option.map_eq_none_iff, ← Option.not_isSome_iff_eq_none]
    exact not_congr ⟨fun h => ⟨hs ▸ hne, fun _ => h⟩, fun h => h.2 hs⟩
  · have hleft : x.ranOut.x_handy = x.x_handy - 4 := rfl
    have hnone : xdr_versions x.ranOut ar.ar_vers = none := by
      rw [xdr_versions, xdr_u_long_none (x := x.ranOut) hop (by omega)]
      rfl
    rw [hnone]
    exact iff_of_true rfl fun h => h.1 hm
  · exact iff_of_false nofun fun h => h ⟨hm, fun hs' => absurd hs' hs⟩

/-- Field by field, a reply that is not one, or is not accepted. -/
theorem replymsgFields_eq (hop : x.x_op = .decode) (h : 12 ≤ x.x_handy) (old : ReplyMsg ρ) :
    replymsgFields proc x old =
      if x.word (x.x_private + 4) = REPLY then
        if x.word (x.x_private + 8) = MSG_ACCEPTED then
          (xdr_accepted_reply proc (x.skip 12) old.rp_acpt).map fun (ar, y) =>
            (⟨x.word x.x_private, x.word (x.x_private + 4), x.word (x.x_private + 8), ar,
              old.rp_rjct⟩, y)
        else if x.word (x.x_private + 8) = MSG_DENIED then
          (xdr_rejected_reply (x.skip 12) old.rp_rjct).map fun (rr, y) =>
            (⟨x.word x.x_private, x.word (x.x_private + 4), x.word (x.x_private + 8), old.rp_acpt,
              rr⟩, y)
        else none
      else none := by
  have hxid := xdr_u_long_skip hop (n := 0) (by omega) old.rm_xid
  have hdirection : xdr_enum (x.skip 4) old.rm_direction =
      some (x.word (x.x_private + 4), x.skip 8) := xdr_u_long_skip hop (n := 4) (by omega) _
  have hstat : xdr_enum (x.skip 8) old.rp_stat =
      some (x.word (x.x_private + 8), x.skip 12) := xdr_u_long_skip hop (n := 8) (by omega) _
  rw [Xdr.skip_zero, Nat.add_zero] at hxid
  refine (gets_bind hxid).trans ((gets_bind hdirection).trans (if_congr Iff.rfl ?_ rfl))
  dsimp only
  rw [xdr_union, gets_bind hstat]

/-- The verifier is there. -/
theorem getAuth_status (hop : x.x_op = .decode) (h : x.toStatus ≤ x.x_handy)
    (hmax : (x.word (x.x_private + 16)).toNat ≤ MAX_AUTH_BYTES) (old : OpaqueAuth) :
    ∃ verf, getAuth (x.skip 12) old = some (verf, x.skip x.toStatus) := by
  have hskip := getAuth_skip hop (n := 12) (by rw [Xdr.toStatus] at h; omega) old
  simp only [Nat.reduceAdd] at hskip
  have htold : 20 + RNDUP (x.word (x.x_private + 16)).toNat = x.toStatus := rfl
  rw [htold] at hskip
  rcases hskip with ⟨hverf, -⟩ | ⟨-, hnot⟩
  · exact hverf
  · rw [← htold] at h
    exact absurd ⟨hmax, by omega⟩ hnot

/-- Field by field, nothing is made of a reply that ends before its status. -/
theorem replymsgFields_of_cut (hop : x.x_op = .decode) (h : x.Cut) (old : ReplyMsg ρ) :
    replymsgFields proc x old = none := by
  obtain ⟨hdir, hacc, hmax, hle, hlt⟩ := h
  obtain ⟨verf, hverf⟩ := getAuth_status hop hle hmax old.rp_acpt.ar_verf
  have hop' : (x.skip x.toStatus).x_op = .decode := (x.op_skip _).trans hop
  have hnone : xdr_enum (x.skip x.toStatus) old.rp_acpt.ar_stat = none :=
    xdr_u_long_none hop' (by simp only [Xdr.skip]; omega) _
  rw [getAuth_eq ((x.op_skip 12).trans hop)] at hverf
  rw [replymsgFields_eq hop (by rw [Xdr.toStatus] at hle; omega), if_pos hdir, if_pos hacc,
    xdr_accepted_reply, gets_bind hverf]
  dsimp only
  rw [hnone]
  rfl

/-- A reply is decoded the same way, but if it ends before its status, and the one that was
    there before will do. -/
theorem xdr_replymsg_decode_iff (hop : x.x_op = .decode) (old : ReplyMsg ρ) :
    xdr_replymsg proc x old = replymsgFields proc x old ↔
      ¬(x.contiguous x.x_private 12 = true ∧ x.Cut ∧ GoesOn proc x old) := by
  rw [xdr_replymsg, hop]
  dsimp only
  by_cases hin : (12 : ℕ) ≤ x.x_handy ∧ x.contiguous x.x_private 12 = true
  swap
  · have hnone : x.inline (3 * 4) = none := if_neg hin
    rw [hnone]
    refine iff_of_true rfl fun h => hin ⟨?_, h.1⟩
    have := h.2.1.2.2.2.1
    rw [Xdr.toStatus] at this
    omega
  have hsome : x.inline (3 * 4) = some (x.x_private, x.skip 12) := if_pos hin
  rw [hsome, replymsgFields_eq hop hin.1]
  dsimp only
  -- what is left of the stream is not to be looked into
  obtain ⟨y, hy⟩ : ∃ y, y = x.skip 12 := ⟨_, rfl⟩
  have hwords (i : ℕ) : y.word i = x.word i := by rw [hy, Xdr.word_skip]
  rw [← hy, replymsgGet]
  simp only [hwords]
  rcases ne_or_eq (x.word (x.x_private + 4)) REPLY with hdir | hdir
  · rw [if_pos hdir, if_neg hdir]
    exact iff_of_true rfl fun h => hdir h.2.1.1
  rw [if_neg (ne_eq _ _ ▸ not_not.2 hdir), if_pos hdir]
  rcases ne_or_eq (x.word (x.x_private + 8)) MSG_ACCEPTED with hacc | hacc
  · rw [if_pos hacc, if_neg hacc]
    exact iff_of_true rfl fun h => hacc h.2.1.2.1
  rw [if_neg (ne_eq _ _ ▸ not_not.2 hacc), if_pos hacc, xdr_accepted_reply, hy,
    ← getAuth_eq ((x.op_skip 12).trans hop)]
  rcases getAuth_skip hop (n := 12) hin.1 old.rp_acpt.ar_verf with ⟨⟨verf, hverf⟩, hmax, hle⟩ |
    ⟨hverf, hnot⟩
  swap
  · rw [hverf]
    exact iff_of_true rfl fun h => hnot ⟨h.2.1.2.2.1, h.2.1.2.2.2.1⟩
  rw [gets_bind hverf, gets_bind hverf]
  have htold : 12 + 8 + RNDUP (x.word (x.x_private + (12 + 4))).toNat = x.toStatus := rfl
  rw [htold]
  have hle' : (x.toStatus : ℤ) ≤ x.x_handy := by rw [← htold]; exact_mod_cast hle
  generalize hz : x.skip x.toStatus = z
  have hleft : z.x_handy = x.x_handy - x.toStatus := by rw [← hz]; rfl
  have hop' : z.x_op = .decode := by rw [← hz, Xdr.op_skip, hop]
  dsimp only
  by_cases hroom : 4 ≤ z.x_handy
  · -- the status is there
    have hword : xdr_enum z old.rp_acpt.ar_stat = some (z.word z.x_private, z.skip 4) := by
      rw [xdr_enum, xdr_u_long, hop']
      exact if_pos hroom
    rw [hword, gets_bind rfl]
    exact iff_of_true rfl fun h => absurd h.2.1.2.2.2.2 (by omega)
  have hnone : xdr_enum z old.rp_acpt.ar_stat = none := xdr_u_long_none hop' (by omega) _
  have hcut : x.Cut := ⟨hdir, hacc, hmax, by omega, by omega⟩
  have hcase := acceptedArm_ranOut proc hop' (by omega)
    { old.rp_acpt with ar_verf := verf }
  rw [hnone]
  refine Iff.trans ⟨fun h => Option.map_eq_none_iff.1 h, fun h => congrArg (Option.map _) h⟩ ?_
  rw [Option.getD_none]
  dsimp only
  rw [hcase]
  refine not_congr ⟨fun h => ⟨hin.2, hcut, ?_⟩, fun h => ?_⟩
  · rw [GoesOn, hz]
    exact h
  · have hgo := h.2.2
    rw [GoesOn, hz] at hgo
    exact hgo

end Replies

/-! ## Both ways -/

/-- The bytes that were put into a stream since it was `x`. -/
def Xdr.since (y x : Xdr) : List UInt8 := y.read x.x_private (y.x_private - x.x_private)

theorem Xdr.since_put (x : Xdr) (b : List UInt8) : (x.put b).since x = b := by
  have hlen : (x.put b).x_private - x.x_private = b.length := by
    have : (x.put b).x_private = x.x_private + b.length := rfl
    omega
  rw [since, hlen]
  exact x.read_write x.x_private b

/-- A message field by field, put into the stream `x`, gives the bytes that made it `y`. -/
def Agrees {μ : Type} (fields : Option (μ × Xdr)) (x y : Xdr) : Prop :=
  ∃ m z, fields = some (m, z) ∧ z.since x = y.since x

/-- A call is decoded to what it was. -/
def ReadsCall (b : List UInt8) (c : CallMsg) : Prop :=
  ∀ z : Xdr, z.Has b → ∀ old, xdr_callmsg z old = some (c, z.skip b.length)

/-- A reply is decoded to one that means the same. -/
def ReadsReply {ρ : Type} (R : Results ρ) (b : List UInt8) (m : ReplyMsg ρ) : Prop :=
  ∀ z : Xdr, z.Has b → ∀ old,
    ∃ m', xdr_replymsg R.proc z old = some (m', z.skip b.length) ∧ m'.Same m

section Calls

variable {c : CallMsg}

theorem putbytes_some {b : List UInt8} {y : Xdr} (h : x.putbytes b = some y) :
    b.length ≤ x.x_handy ∧ y = x.put b := by
  rw [Xdr.putbytes_eq] at h
  split_ifs at h with hle
  exact ⟨hle, (Option.some.inj h).symm⟩

theorem xdr_u_long_encode (hop : x.x_op = .encode) {w v : UInt32} {y : Xdr}
    (h : xdr_u_long x w = some (v, y)) : v = w ∧ y.x_op = .encode := by
  rw [xdr_u_long_put hop] at h
  obtain ⟨z, hz, hpair⟩ := Option.map_eq_some_iff.1 h
  obtain ⟨rfl, rfl⟩ := Prod.mk.inj hpair
  rw [(putbytes_some hz).2]
  exact ⟨rfl, hop⟩

/-- Field by field only a call is put. -/
theorem callmsgFields_some (hop : x.x_op = .encode) {r : CallMsg × Xdr}
    (h : callmsgFields x c = some r) : c.rm_direction = CALL ∧ c.cb_rpcvers = RPC_MSG_VERSION := by
  obtain ⟨⟨xid, y⟩, hxid, h⟩ := Option.bind_eq_some_iff.1 h
  obtain ⟨-, hy⟩ := xdr_u_long_encode hop hxid
  obtain ⟨⟨direction, z⟩, hdirection, h⟩ := Option.bind_eq_some_iff.1 h
  obtain ⟨rfl, hz⟩ := xdr_u_long_encode hy hdirection
  dsimp only at h
  split_ifs at h with hdir
  obtain ⟨⟨rpcvers, t⟩, hrpcvers, h⟩ := Option.bind_eq_some_iff.1 h
  obtain ⟨rfl, -⟩ := xdr_u_long_encode hz hrpcvers
  dsimp only at h
  split_ifs at h with hvers
  exact ⟨not_not.1 hdir, not_not.1 hvers⟩

/-- Encoding a call. -/
theorem xdr_callmsg_encode (hop : x.x_op = .encode)
    (hcred : c.cb_cred.oa_length ≤ MAX_AUTH_BYTES) (hverf : c.cb_verf.oa_length ≤ MAX_AUTH_BYTES)
    {c' : CallMsg} {y : Xdr} (h : xdr_callmsg x c = some (c', y)) :
    c.rm_direction = CALL ∧ c.cb_rpcvers = RPC_MSG_VERSION ∧
      ((x.inline c.space).isSome = true ∧ c.space ≤ x.x_handy ∧
          y = x.put (callBytes c (x.credPad c) (x.verfPad c)) ∨
        (x.inline c.space).isSome = false ∧ callmsgFields x c = some (c', y)) := by
  rw [xdr_callmsg, hop] at h
  dsimp only at h
  rw [if_neg (not_lt.2 hcred), if_neg (not_lt.2 hverf)] at h
  have hspace : 8 * 4 + RNDUP c.cb_cred.oa_length + 2 * 4 + RNDUP c.cb_verf.oa_length =
      c.space := rfl
  rw [hspace] at h
  by_cases hin : (c.space : ℤ) ≤ x.x_handy ∧ x.contiguous x.x_private c.space = true
  · have hsome : x.inline c.space = some (x.x_private, x.skip c.space) := if_pos hin
    rw [hsome] at h ⊢
    dsimp only at h
    have hsound : c.rm_direction = CALL ∧ c.cb_rpcvers = RPC_MSG_VERSION := by
      rw [callmsgPut] at h
      split_ifs at h with hdir hvers
      exact ⟨not_not.1 hdir, not_not.1 hvers⟩
    rw [callmsgPut_eq x hsound.1 hsound.2] at h
    obtain ⟨-, rfl⟩ := Prod.mk.inj (Option.some.inj h)
    exact ⟨hsound.1, hsound.2, .inl ⟨rfl, hin.1, rfl⟩⟩
  · have hnone : x.inline c.space = none := if_neg hin
    rw [hnone] at h ⊢
    obtain ⟨hdir, hvers⟩ := callmsgFields_some hop h
    exact ⟨hdir, hvers, .inr ⟨rfl, h⟩⟩

/-- A call reads back, whatever fills up its authentication. -/
theorem readsCall {pad pad' : List UInt8} (hcred : c.cb_cred.oa_length ≤ MAX_AUTH_BYTES)
    (hverf : c.cb_verf.oa_length ≤ MAX_AUTH_BYTES) (hpad : pad.length = rndup c.cb_cred.oa_length)
    (hpad' : pad'.length = rndup c.cb_verf.oa_length) (hdir : c.rm_direction = CALL)
    (hvers : c.cb_rpcvers = RPC_MSG_VERSION) : ReadsCall (callBytes c pad pad') c := by
  intro z hz old
  rw [xdr_callmsg_decode hz.op]
  exact callmsgFields_get hz hcred hverf hpad hpad' hdir hvers old

/-- What fills up authentication can be seen from the bytes. -/
theorem callBytes_inj {pad pad' q q' : List UInt8} (h : pad.length = q.length) :
    callBytes c pad pad' = callBytes c q q' ↔ pad = q ∧ pad' = q' := by
  constructor
  · intro heq
    rw [callBytes, callBytes] at heq
    obtain ⟨hc, hv⟩ := List.append_inj (List.append_cancel_left heq) (by simp [authBytes, h])
    exact ⟨List.append_cancel_left (List.append_cancel_left hc),
      List.append_cancel_left (List.append_cancel_left hv)⟩
  · rintro ⟨rfl, rfl⟩
    rfl

theorem xdr_callmsg_encode_iff (hop : x.x_op = .encode)
    (hcred : c.cb_cred.oa_length ≤ MAX_AUTH_BYTES) (hverf : c.cb_verf.oa_length ≤ MAX_AUTH_BYTES)
    {c' : CallMsg} {y : Xdr} (h : xdr_callmsg x c = some (c', y)) :
    Agrees (callmsgFields x c) x y ∧ ReadsCall (y.since x) c ↔
      (x.inline c.space).isSome = false ∨
        x.credPad c = c.cb_cred.zeros ∧ x.verfPad c = c.cb_verf.zeros := by
  have hzeros (oa : OpaqueAuth) : oa.zeros.length = rndup oa.oa_length := List.length_replicate
  have hpad : (x.credPad c).length = rndup c.cb_cred.oa_length := Xdr.length_read _ _ _
  have hpad' : (x.verfPad c).length = rndup c.cb_verf.oa_length := Xdr.length_read _ _ _
  obtain ⟨hdir, hvers, ⟨hin, hroom, rfl⟩ | ⟨hin, hfields⟩⟩ := xdr_callmsg_encode hop hcred hverf h
  · have hput := callmsgFields_put hop hcred hverf hdir hvers
    rw [Xdr.putbytes_eq, length_callBytes (hzeros _) (hzeros _), if_pos hroom] at hput
    have hread := readsCall hcred hverf hpad hpad' hdir hvers
    have hagree : Agrees (callmsgFields x c) x (x.put (callBytes c (x.credPad c) (x.verfPad c))) ↔
        callBytes c c.cb_cred.zeros c.cb_verf.zeros = callBytes c (x.credPad c) (x.verfPad c) := by
      rw [Agrees, hput, Xdr.since_put]
      constructor
      · rintro ⟨m, z, hz, hsince⟩
        obtain ⟨-, rfl⟩ := Prod.mk.inj (Option.some.inj hz)
        rwa [Xdr.since_put] at hsince
      · exact fun heq => ⟨c, _, rfl, by rw [Xdr.since_put, heq]⟩
    rw [hagree, Xdr.since_put, callBytes_inj ((hzeros _).trans hpad.symm), hin]
    exact ⟨fun h => .inr ⟨h.1.1.symm, h.1.2.symm⟩,
      fun h => ⟨(h.resolve_left nofun).imp Eq.symm Eq.symm, hread⟩⟩
  · refine iff_of_true ⟨⟨c', y, hfields, rfl⟩, ?_⟩ (.inl hin)
    rw [callmsgFields_put hop hcred hverf hdir hvers] at hfields
    obtain ⟨z, hz, hpair⟩ := Option.map_eq_some_iff.1 hfields
    obtain ⟨-, rfl⟩ := Prod.mk.inj hpair
    rw [(putbytes_some hz).2, Xdr.since_put]
    exact readsCall hcred hverf (hzeros _) (hzeros _) hdir hvers

end Calls

section Replies

variable {ρ : Type} {R : Results ρ} {m : ReplyMsg ρ}

/-- Field by field only a reply is put that can be sent. -/
theorem replymsgFields_some {proc : Xdr → ρ → Option (ρ × Xdr)} (hop : x.x_op = .encode)
    {r : ReplyMsg ρ × Xdr} (h : replymsgFields proc x m = some r) : m.Sound := by
  obtain ⟨⟨xid, y⟩, hxid, h⟩ := Option.bind_eq_some_iff.1 h
  obtain ⟨-, hy⟩ := xdr_u_long_encode hop hxid
  obtain ⟨⟨direction, z⟩, hdirection, h⟩ := Option.bind_eq_some_iff.1 h
  obtain ⟨rfl, hz⟩ := xdr_u_long_encode hy hdirection
  dsimp only at h
  split_ifs at h with hdir
  refine ⟨hdir, ?_⟩
  obtain ⟨⟨stat, t⟩, hstat, h⟩ := Option.bind_eq_some_iff.1 h
  obtain ⟨rfl, ht⟩ := xdr_u_long_encode hz hstat
  dsimp only at h
  split_ifs at h with hacc hden
  · exact .inl hacc
  · obtain ⟨⟨rr, u⟩, hrr, -⟩ := Option.map_eq_some_iff.1 h
    obtain ⟨⟨why, s⟩, hwhy, hrr⟩ := Option.bind_eq_some_iff.1 hrr
    obtain ⟨rfl, -⟩ := xdr_u_long_encode ht hwhy
    dsimp only at hrr
    split_ifs at hrr with hmis hauth
    · exact .inr ⟨hden, .inl hmis⟩
    · exact .inr ⟨hden, .inr hauth⟩

/-- A reply reads back. -/
theorem readsReply (hs : m.Sound)
    (hle : m.rp_stat = MSG_ACCEPTED → m.rp_acpt.ar_verf.oa_length ≤ MAX_AUTH_BYTES) :
    ReadsReply R (replyBytes R m) m := by
  intro z hz old
  obtain ⟨m', hm', hsame⟩ := replymsgFields_get hz hs hle old
  refine ⟨m', ?_, hsame⟩
  rw [← hm']
  refine (xdr_replymsg_decode_iff hz.op old).2 fun h => ?_
  rw [replymsgFields_of_cut hz.op h.2.1] at hm'
  exact absurd hm' nofun

/-- A reply that is not the same both ways: its verifier is to be filled up, and there is
    space. -/
def ReplyMsg.Ragged (m : ReplyMsg ρ) (x : Xdr) : Prop :=
  m.rp_stat = MSG_ACCEPTED ∧ (x.inline m.space).isSome = true ∧ ¬4 ∣ m.rp_acpt.ar_verf.oa_length

/-- Where that is not so, a reply is put as it is field by field. -/
theorem xdr_replymsg_encode (hop : x.x_op = .encode) (h : ¬m.Ragged x)
    (hle : m.rp_stat = MSG_ACCEPTED → m.rp_acpt.ar_verf.oa_length ≤ MAX_AUTH_BYTES) :
    xdr_replymsg R.proc x m = replymsgFields R.proc x m := by
  rw [xdr_replymsg, hop]
  dsimp only
  have hspace : 6 * 4 + m.rp_acpt.ar_verf.oa_length = m.space := rfl
  rw [hspace]
  split_ifs with hfast
  · by_cases hin : (m.space : ℤ) ≤ x.x_handy ∧ x.contiguous x.x_private m.space = true
    · have hsome : x.inline m.space = some (x.x_private, x.skip m.space) := if_pos hin
      have hdvd : 4 ∣ m.rp_acpt.ar_verf.oa_length := by
        by_contra hdvd
        exact h ⟨hfast.1, by rw [hsome]; rfl, hdvd⟩
      rw [hsome, replymsgFields_put hop ⟨hfast.2, .inl hfast.1⟩ hle]
      exact replymsgPut_of_dvd hop hin.1 hdvd hfast.1
    · have hnone : x.inline m.space = none := if_neg hin
      rw [hnone]
  · rfl

/-- How far a stream is after the results. -/
theorem acceptedArm_private (hop : x.x_op = .encode) (h₀ : 0 ≤ x.x_handy) {ar ar' : AcceptedReply ρ}
    {y : Xdr} (h : acceptedArm R.proc x ar = some (ar', y)) :
    y.x_private = x.x_private + (armBytes R ar).length := by
  rw [acceptedArm_put hop h₀] at h
  obtain ⟨z, hz, hpair⟩ := Option.map_eq_some_iff.1 h
  obtain ⟨-, rfl⟩ := Prod.mk.inj hpair
  rw [(putbytes_some hz).2]
  rfl

theorem length_replyBytes (h : m.rp_stat = MSG_ACCEPTED) :
    (replyBytes R m).length =
      24 + RNDUP m.rp_acpt.ar_verf.oa_length + (armBytes R m.rp_acpt).length := by
  have hzeros : m.rp_acpt.ar_verf.zeros.length = rndup m.rp_acpt.ar_verf.oa_length :=
    List.length_replicate
  rw [replyBytes, if_pos h, List.length_append, List.length_append, List.length_append,
    length_authBytes hzeros, length_longs, length_longs]
  simp only [List.length_cons, List.length_nil]
  omega

/-- A ragged reply is too short in space. -/
theorem not_agrees_of_ragged (hop : x.x_op = .encode) (h : m.Ragged x)
    (hle : m.rp_acpt.ar_verf.oa_length ≤ MAX_AUTH_BYTES) {m' : ReplyMsg ρ} {y : Xdr}
    (hy : xdr_replymsg R.proc x m = some (m', y)) : ¬Agrees (replymsgFields R.proc x m) x y := by
  rintro ⟨m'', z, hz, hsince⟩
  obtain ⟨hacc, hin, hdvd⟩ := h
  have hs := replymsgFields_some hop hz
  rw [replymsgFields_put hop hs fun _ => hle] at hz
  obtain ⟨z', hz', hpair⟩ := Option.map_eq_some_iff.1 hz
  obtain ⟨-, rfl⟩ := Prod.mk.inj hpair
  rw [(putbytes_some hz').2, Xdr.since_put] at hsince
  -- in space the stream goes on where this ends
  have hspace : 6 * 4 + m.rp_acpt.ar_verf.oa_length = m.space := rfl
  have hroom : (m.space : ℤ) ≤ x.x_handy ∧ x.contiguous x.x_private m.space = true := by
    by_contra hnot
    rw [Xdr.inline, if_neg hnot] at hin
    exact absurd hin nofun
  have hsome : x.inline m.space = some (x.x_private, x.skip m.space) := if_pos hroom
  rw [xdr_replymsg, hop] at hy
  dsimp only at hy
  rw [if_pos ⟨hacc, hs.1⟩, hspace, hsome] at hy
  dsimp only at hy
  obtain ⟨pad, -, hput⟩ := replymsgPut_eq (R := R) x m
  rw [hput] at hy
  obtain ⟨⟨ar, y'⟩, harm, hpair⟩ := Option.map_eq_some_iff.1 hy
  obtain ⟨-, rfl⟩ := Prod.mk.inj hpair
  obtain ⟨u, hu⟩ : ∃ u, u = (x.skip m.space).write x.x_private (replyHead m pad) := ⟨_, rfl⟩
  have hop' : u.x_op = .encode := by rw [hu]; exact hop
  have hleft : u.x_handy = x.x_handy - m.space := by rw [hu]; rfl
  have hpos : u.x_private = x.x_private + m.space := by rw [hu]; rfl
  rw [← hu] at harm
  have hend := acceptedArm_private hop' (by omega) harm
  have hlen := congrArg List.length hsince
  rw [length_replyBytes hacc, Xdr.since, Xdr.length_read, hend, hpos, ReplyMsg.space,
    RNDUP] at hlen
  omega

end Replies

/-- The two ways of a message: a call in space is filled up by what lies there, a reply in
    space is cut where its verifier ends, and the decoder of replies does not miss a status.
    But for that they are the same, and what is encoded is decoded to what it was. -/
theorem paths_agree_iff {ρ : Type} (R : Results ρ) :
    (∀ (x y : Xdr) (c c' : CallMsg), x.x_op = .encode →
      c.cb_cred.oa_length ≤ MAX_AUTH_BYTES → c.cb_verf.oa_length ≤ MAX_AUTH_BYTES →
      xdr_callmsg x c = some (c', y) →
      (Agrees (callmsgFields x c) x y ∧ ReadsCall (y.since x) c ↔
        (x.inline c.space).isSome = false ∨
          x.credPad c = c.cb_cred.zeros ∧ x.verfPad c = c.cb_verf.zeros)) ∧
    (∀ (x y : Xdr) (m m' : ReplyMsg ρ), x.x_op = .encode →
      (m.rp_stat = MSG_ACCEPTED → m.rp_acpt.ar_verf.oa_length ≤ MAX_AUTH_BYTES) →
      xdr_replymsg R.proc x m = some (m', y) →
      (Agrees (replymsgFields R.proc x m) x y ∧ ReadsReply R (y.since x) m ↔ ¬m.Ragged x)) ∧
    (∀ (x : Xdr) (c : CallMsg), x.x_op = .decode → xdr_callmsg x c = callmsgFields x c) ∧
    ∀ (x : Xdr) (m : ReplyMsg ρ), x.x_op = .decode →
      (xdr_replymsg R.proc x m = replymsgFields R.proc x m ↔
        ¬(x.contiguous x.x_private 12 = true ∧ x.Cut ∧ GoesOn R.proc x m)) := by
  refine ⟨fun x y c c' hop hcred hverf hy => xdr_callmsg_encode_iff hop hcred hverf hy,
    fun x y m m' hop hle hy => ?_, fun x c hop => xdr_callmsg_decode hop c,
    fun x m hop => xdr_replymsg_decode_iff hop m⟩
  by_cases hr : m.Ragged x
  · exact iff_of_false (fun h => not_agrees_of_ragged hop hr (hle hr.1) hy h.1) (not_not.2 hr)
  · rw [xdr_replymsg_encode hop hr hle] at hy
    have hs := replymsgFields_some hop hy
    refine iff_of_true ⟨⟨m', y, hy, rfl⟩, ?_⟩ hr
    rw [replymsgFields_put hop hs hle] at hy
    obtain ⟨z, hz, hpair⟩ := Option.map_eq_some_iff.1 hy
    obtain ⟨-, rfl⟩ := Prod.mk.inj hpair
    rw [(putbytes_some hz).2, Xdr.since_put]
    exact readsReply hs hle

/-- No results. -/
def xdr_void : Results Unit where
  proc x r := some (r, x)
  bytes _ := []
  put _ h₀ _ := by
    rw [putbytes_nil h₀]
    rfl
  get _ _ := by
    rw [List.length_nil, Xdr.skip_zero]

/-- A call with four bytes of authentication. -/
theorem paths_agree_void : ∃ (x y : Xdr) (c : CallMsg), xdr_callmsg x c = some (c, y) ∧
    Agrees (callmsgFields x c) x y ∧ ReadsCall (y.since x) c := by
  obtain ⟨x, hx⟩ : ∃ x : Xdr, x = ⟨.encode, fun _ => 1, 0, 44, fun _ _ => true⟩ := ⟨_, rfl⟩
  obtain ⟨c, hc⟩ : ∃ c : CallMsg,
      c = ⟨7, CALL, RPC_MSG_VERSION, 0, 0, 0, ⟨1, [5, 5, 5, 5]⟩, ⟨0, []⟩⟩ := ⟨_, rfl⟩
  have hbytes : (xdr_callmsg x c).map Prod.fst = some c := by
    rw [hx, hc]
    decide
  obtain ⟨⟨c', y⟩, hy, hsame⟩ := Option.map_eq_some_iff.1 hbytes
  obtain rfl : c' = c := hsame
  refine ⟨x, y, c', hy, ((paths_agree_iff xdr_void).1 x y c' c' ?_ ?_ ?_ hy).2 (.inr ?_)⟩
  · rw [hx]
  · rw [hc]
    decide
  · rw [hc]
    decide
  · rw [hx, hc]
    decide

/-- A call with one byte of authentication, in space where ones lie. -/
theorem not_paths_agree : ∃ (x y : Xdr) (c : CallMsg), x.x_op = .encode ∧
    c.cb_cred.oa_length ≤ MAX_AUTH_BYTES ∧ c.cb_verf.oa_length ≤ MAX_AUTH_BYTES ∧
    xdr_callmsg x c = some (c, y) ∧ ¬Agrees (callmsgFields x c) x y := by
  obtain ⟨x, hx⟩ : ∃ x : Xdr, x = ⟨.encode, fun _ => 1, 0, 44, fun _ _ => true⟩ := ⟨_, rfl⟩
  obtain ⟨c, hc⟩ : ∃ c : CallMsg, c = ⟨7, CALL, RPC_MSG_VERSION, 0, 0, 0, ⟨1, [5]⟩, ⟨0, []⟩⟩ :=
    ⟨_, rfl⟩
  have hbytes : (xdr_callmsg x c).map (fun r => (r.1, (r.2.since x).drop 32)) =
      some (c, [5, 1, 1, 1, 0, 0, 0, 0, 0, 0, 0, 0]) := by
    rw [hx, hc]
    decide
  have hfields : (callmsgFields x c).map (fun r => (r.2.since x).drop 32) =
      some [5, 0, 0, 0, 0, 0, 0, 0, 0, 0, 0, 0] := by
    rw [hx, hc]
    decide
  obtain ⟨⟨c', y⟩, hy, hpair⟩ := Option.map_eq_some_iff.1 hbytes
  obtain ⟨hsame, hone⟩ := Prod.mk.inj hpair
  obtain rfl : c' = c := hsame
  refine ⟨x, y, c', by rw [hx], by rw [hc]; decide, by rw [hc]; decide, hy, ?_⟩
  rintro ⟨m, z, hz, hsince⟩
  rw [hz, Option.map_some, Option.some_inj, hsince] at hfields
  exact absurd (hone.symm.trans hfields) (by decide)

end AuxKernel.Rpc.Prot

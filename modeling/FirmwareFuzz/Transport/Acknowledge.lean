import FirmwareFuzz.Transport.Segmentation

/-!
# What the autopilot acknowledges

A SUBSCRIBE or PUBREL is acknowledged on the bytes at hand: the remaining
length is read for its size only, and the two bytes behind it are the packet
identifier, if they were written (`acknowledges_iff`). So the header may be
malformed, and the packet may be too short for an identifier, or cut off
(`acknowledges_malformed`).
-/

namespace FirmwareFuzz

open CLang

variable {buf rest body reply : List UInt8} {len : Int32} {mode : FuzzMode} {type : UInt8}

/-- `body` follows the remaining length at the front of `rest`: up to its last
    byte, or four bytes of it without a last one. -/
def FollowsLength (rest body : List UInt8) : Prop :=
  (∃ n, byteVarint.read 4 rest = some (n, body)) ∨
    ∃ four : List UInt8, four.length = 4 ∧ (∀ c ∈ four, byteVarint.more c = true) ∧
      rest = four ++ body

/-- What follows the length is what is behind the bytes scanned. -/
theorem followsLength_iff (hbody : body ≠ []) :
    FollowsLength rest body ↔ rest.drop (byteVarint.scan 4 rest).2 = body := by
  cases h : byteVarint.read 4 rest with
  | some q =>
    obtain ⟨n, r⟩ := q
    rw [FollowsLength, h, (byteVarint.scan_of_read h).2]
    constructor
    · rintro (⟨_, heq⟩ | ⟨four, hlen, hmore, rfl⟩)
      · exact (Prod.mk.inj (Option.some.inj heq)).2
      · -- Four bytes that all continue are no length that ends.
        rw [byteVarint.read_eq_none_iff.2 (by rwa [← hlen, List.take_left])] at h
        cases h
    · rintro rfl
      exact .inl ⟨n, rfl⟩
  | none =>
    have hmore := byteVarint.read_eq_none_iff.1 h
    rw [FollowsLength, h, byteVarint.scan_snd_of_more hmore]
    constructor
    · rintro (⟨_, heq⟩ | ⟨four, hlen, -, rfl⟩)
      · cases heq
      · rw [List.length_append, hlen, Nat.min_eq_left (Nat.le_add_right _ _), ← hlen,
          List.drop_left]
    · intro hdrop
      have hlen : 4 < rest.length := by
        by_contra hle
        rw [Nat.min_eq_right (Nat.le_of_not_lt hle), List.drop_length] at hdrop
        exact hbody hdrop.symm
      rw [Nat.min_eq_left hlen.le] at hdrop
      refine .inr ⟨rest.take 4, ?_, hmore, ?_⟩
      · rw [List.length_take, Nat.min_eq_left hlen.le]
      · rw [← hdrop, List.take_append_drop]

theorem idAt_eq_some_iff {i : ℕ} {idHi idLo : UInt8} :
    idAt buf i = some (idHi, idLo) ↔ ∃ tail, buf.drop i = idHi :: idLo :: tail := by
  rcases Nat.lt_or_ge (i + 1) buf.length with h | h
  · have hdrop : buf.drop i = buf[i] :: buf[i + 1] :: buf.drop (i + 1 + 1) := by
      rw [List.drop_eq_getElem_cons (Nat.lt_of_succ_lt h), List.drop_eq_getElem_cons h]
    rw [idAt_of_lt h, hdrop]
    simp only [Option.some_inj, Prod.mk.injEq, List.cons.injEq, exists_and_left, exists_eq',
      and_true]
  · rw [idAt_of_le h]
    refine iff_of_false (fun hnone => by cases hnone) ?_
    rintro ⟨tail, htail⟩
    have := congrArg List.length htail
    rw [List.length_drop, List.length_cons, List.length_cons] at this
    omega

/-- The packet identifier is read behind the length. -/
theorem headerId_eq_some_iff {b idHi idLo : UInt8} :
    headerId (b :: rest) = some (idHi, idLo) ↔
      ∃ tail, FollowsLength rest (idHi :: idLo :: tail) := by
  rw [headerId, idAt_eq_some_iff]
  refine exists_congr fun tail => ?_
  rw [followsLength_iff (List.cons_ne_nil _ _), Nat.add_comm, List.drop_succ_cons,
    List.drop_succ_cons, List.drop_zero]

/-- A SUBACK or a PUBCOMP. -/
def IsAck (reply : List UInt8) : Prop := reply.head? = some 0x90 ∨ reply.head? = some 0x70

instance (reply : List UInt8) : Decidable (IsAck reply) := inferInstanceAs (Decidable (_ ∨ _))

theorem isAck_ackTo (idHi idLo : UInt8) : IsAck (ackTo mode type idHi idLo) := by
  rw [ackTo]
  split_ifs
  · exact .inr rfl
  · exact .inl rfl
  · exact .inl rfl

/-- Where the packet identifier is echoed, the reply is the acknowledgement. -/
theorem replyTo_some (h : EchoesId mode type) (idHi idLo : UInt8) :
    replyTo mode type (some (idHi, idLo)) = ackTo mode type idHi idLo := by
  rcases h with ⟨rfl, rfl | rfl | rfl⟩ | ⟨rfl, rfl | rfl⟩ <;> rfl

/-- Only the replies with the packet identifier acknowledge. -/
theorem isAck_replyTo_iff {id : Option (UInt8 × UInt8)} :
    IsAck (replyTo mode type id) ↔ EchoesId mode type ∧ ∃ idHi idLo, id = some (idHi, idLo) := by
  constructor
  · intro h
    by_cases hecho : EchoesId mode type
    · cases id with
      | none =>
        rw [replyTo_none hecho.type_eq] at h
        exact absurd h (by decide)
      | some id => exact ⟨hecho, id.1, id.2, rfl⟩
    · rw [replyTo, if_neg hecho] at h
      split_ifs at h <;> exact absurd h (by decide)
  · rintro ⟨hecho, idHi, idLo, rfl⟩
    rw [replyTo_some hecho]
    exact isAck_ackTo idHi idLo

/-- With autopilot on, an acknowledgement is queued for a buffer if and only if
    the mode acknowledges its type and two bytes follow the length in its first
    `len` bytes. What is queued then is the acknowledgement of these two. -/
theorem acknowledges_iff {autopilot : Int32} (hauto : autopilot ≠ 0) (mode : FuzzMode)
    (hlen : len.toInt ≤ buf.length) :
    (IsAck ((Op.write buf len true).queued autopilot mode) ↔
      ∃ b rest idHi idLo tail, buf.take len.toInt.toNat = b :: rest ∧
        EchoesId mode (b &&& 0xF0) ∧ FollowsLength rest (idHi :: idLo :: tail)) ∧
    ∀ b rest idHi idLo tail, buf.take len.toInt.toNat = b :: rest →
      EchoesId mode (b &&& 0xF0) → FollowsLength rest (idHi :: idLo :: tail) →
        (Op.write buf len true).queued autopilot mode = ackTo mode (b &&& 0xF0) idHi idLo := by
  rw [queued_write hauto hlen]
  constructor
  · cases buf.take len.toInt.toNat with
    | nil =>
      have hnot : ¬IsAck [] := by decide
      exact iff_of_false hnot fun ⟨_, _, _, _, _, h, _⟩ => List.cons_ne_nil _ _ h.symm
    | cons b rest =>
      simp only [replyToBuffer, isAck_replyTo_iff, headerId_eq_some_iff]
      constructor
      · rintro ⟨hecho, idHi, idLo, tail, hbody⟩
        exact ⟨b, rest, idHi, idLo, tail, rfl, hecho, hbody⟩
      · rintro ⟨_, _, idHi, idLo, tail, heq, hecho, hbody⟩
        obtain ⟨rfl, rfl⟩ := List.cons.inj heq
        exact ⟨hecho, idHi, idLo, tail, hbody⟩
  · intro b rest idHi idLo tail htake hecho hbody
    rw [htake, replyToBuffer, headerId_eq_some_iff.2 ⟨tail, hbody⟩, replyTo_some hecho]

/-- A SUBSCRIBE with the packet identifier 1234. -/
theorem acknowledges_iff_subscribe :
    IsAck ((Op.write [0x82, 0x06, 0x12, 0x34, 0x00, 0x01, 0x61, 0x00] 8 true).queued
        1 .subscribe) ∧
      (Op.write [0x82, 0x06, 0x12, 0x34, 0x00, 0x01, 0x61, 0x00] 8 true).queued 1 .subscribe =
        ackTo .subscribe (0x82 &&& 0xF0) 0x12 0x34 := by
  have hbody : FollowsLength [0x06, 0x12, 0x34, 0x00, 0x01, 0x61, 0x00]
      [0x12, 0x34, 0x00, 0x01, 0x61, 0x00] := .inl ⟨6, by decide⟩
  have h := @acknowledges_iff [0x82, 0x06, 0x12, 0x34, 0x00, 0x01, 0x61, 0x00] 8 1 (by decide)
    .subscribe (by decide)
  exact ⟨h.1.2 ⟨_, _, _, _, _, rfl, by decide, hbody⟩, h.2 _ _ _ _ _ rfl (by decide) hbody⟩

/-- The bytes written start with a packet whose remaining length ends within four
    bytes, is enough for a packet identifier and does not reach past them, and
    the reply has the identifier at the start of its body. -/
def AcksPacket (mode : FuzzMode) (bytes reply : List UInt8) : Prop :=
  ∃ b rest n idHi idLo tail, bytes = b :: rest ∧
    byteVarint.read 4 rest = some (n, idHi :: idLo :: tail) ∧ 2 ≤ n ∧
    n ≤ (idHi :: idLo :: tail).length ∧ reply = ackTo mode (b &&& 0xF0) idHi idLo

/-- A SUBSCRIBE without a body is acknowledged, with the bytes of the next packet. -/
theorem acknowledges_malformed :
    IsAck ((Op.write [0x82, 0x00, 0xC0, 0x00] 4 true).queued 1 .subscribe) ∧
      ¬AcksPacket .subscribe [0x82, 0x00, 0xC0, 0x00]
        ((Op.write [0x82, 0x00, 0xC0, 0x00] 4 true).queued 1 .subscribe) := by
  refine ⟨by decide, fun ⟨b, rest, n, idHi, idLo, tail, hbytes, hread, hn, _⟩ => ?_⟩
  obtain ⟨rfl, rfl⟩ := List.cons.inj hbytes
  have h0 : byteVarint.read 4 [0x00, 0xC0, 0x00] = some (0, [0xC0, 0x00]) := by decide
  obtain ⟨rfl, -⟩ := Prod.mk.inj (Option.some.inj (h0.symm.trans hread))
  exact absurd hn (by decide)

end FirmwareFuzz

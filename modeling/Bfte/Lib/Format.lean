import Mathlib.Data.List.Basic
import Bfte.Lib.Decoder

/-!
# What a decoder accepts

A format says which byte strings stand for a value, how much of the limit it takes to
decode it and how much is gone when it is decoded. `Decodes` says that a decoder does
neither more nor less: it reads one of these strings off the front of the input and
leaves the rest, if the limit allows it. `Encodes` says that an encoder writes one of
them.

There is one format and one rule for each way to put decoders together, so that a type
is decoded as its parts are. From both sides together comes the round trip.
-/

namespace Bincode

/-- The byte strings that stand for a value, and what they take of the limit. -/
structure Format (α : Type) where
  form : α → List UInt8 → Prop
  need : α → ℕ
  cost : α → ℕ
  cost_le_need : ∀ a, cost a ≤ need a

/-- The decoder reads the format off the front of the input. -/
def Decodes {α : Type} (decode : Decoder α) (f : Format α) : Prop :=
  ∀ s a s', decode s = .ok (a, s') ↔
    ∃ x, f.form a x ∧ s.bytes = x ++ s'.bytes ∧ f.need a ≤ s.budget ∧
      s'.budget + f.cost a = s.budget

/-- The encoder writes the format, as long as no length overflows. -/
def Encodes {α : Type} (encode : α → List UInt8) (f : Format α) : Prop :=
  ∀ a, f.need a < 2 ^ 64 → f.form a (encode a)

variable {α β : Type} {decode : Decoder α} {f : Format α} {s s' : Input}

/-! ## Round trips -/

theorem Decodes.decode_append (hd : Decodes decode f) {a : α} {x rest : List UInt8}
    {limit : ℕ} (hform : f.form a x) (hneed : f.need a ≤ limit) :
    decode ⟨x ++ rest, limit⟩ = .ok (a, ⟨rest, limit - f.cost a⟩) := by
  refine (hd _ _ _).mpr ⟨x, hform, rfl, hneed, ?_⟩
  exact Nat.sub_add_cancel (Nat.le_trans (f.cost_le_need a) hneed)

/-- One step after the other. -/
theorem bind_eq_ok {k : α → Decoder β} {b : β} :
    (decode >>= k) s = .ok (b, s') ↔
      ∃ a s₁, decode s = .ok (a, s₁) ∧ k a s₁ = .ok (b, s') := by
  show (decode s >>= fun p => k p.1 p.2) = .ok (b, s') ↔ _
  cases decode s with
  | error e =>
      constructor
      · intro h
        cases h
      · rintro ⟨a, s₁, h, -⟩
        cases h
  | ok p =>
      constructor
      · intro h
        exact ⟨p.1, p.2, rfl, h⟩
      · rintro ⟨a, s₁, h, hk⟩
        cases h
        exact hk

theorem map_eq_ok {g : α → β} {b : β} :
    (g <$> decode) s = .ok (b, s') ↔ ∃ a, decode s = .ok (a, s') ∧ g a = b := by
  rw [← bind_pure_comp, bind_eq_ok]
  constructor
  · rintro ⟨a, s₁, h, hpure⟩
    cases hpure
    exact ⟨a, h, rfl⟩
  · rintro ⟨a, h, rfl⟩
    exact ⟨a, s', h, rfl⟩

/-- Two steps take what the first takes and what the second takes of the rest. -/
theorem Decodes.bind_eq_ok (hd : Decodes decode f) {k : α → Decoder β} {g : α → Format β}
    (hk : ∀ a, Decodes (k a) (g a)) {b : β} :
    (decode >>= k) s = .ok (b, s') ↔
      ∃ a x y, f.form a x ∧ (g a).form b y ∧ s.bytes = x ++ y ++ s'.bytes ∧
        max (f.need a) (f.cost a + (g a).need b) ≤ s.budget ∧
        s'.budget + (f.cost a + (g a).cost b) = s.budget := by
  rw [Bincode.bind_eq_ok]
  constructor
  · rintro ⟨a, s₁, h, hb⟩
    obtain ⟨x, hx, hbytes, hneed, hcost⟩ := (hd _ _ _).mp h
    obtain ⟨y, hy, hbytes', hneed', hcost'⟩ := (hk a _ _ _).mp hb
    refine ⟨a, x, y, hx, hy, ?_, by omega, by omega⟩
    rw [hbytes, hbytes', List.append_assoc]
  · rintro ⟨a, x, y, hx, hy, hbytes, hneed, hcost⟩
    have hle := (g a).cost_le_need b
    refine ⟨a, ⟨y ++ s'.bytes, s.budget - f.cost a⟩, (hd _ _ _).mpr ⟨x, hx, ?_, ?_, ?_⟩,
      (hk a _ _ _).mpr ⟨y, hy, rfl, ?_, ?_⟩⟩
    · rw [hbytes, List.append_assoc]
    · omega
    · show s.budget - f.cost a + f.cost a = s.budget
      omega
    · show (g a).need b ≤ s.budget - f.cost a
      omega
    · show s'.budget + (g a).cost b = s.budget - f.cost a
      omega

/-- Two steps read a format that is made of what each of them reads. -/
theorem Decodes.bind (hd : Decodes decode f) {k : α → Decoder β} {g : α → Format β}
    (hk : ∀ a, Decodes (k a) (g a)) {h : Format β}
    (hsplit : ∀ b z, h.form b z → ∃ a x y, f.form a x ∧ (g a).form b y ∧ z = x ++ y)
    (hjoin : ∀ a b x y, f.form a x → (g a).form b y → h.form b (x ++ y) ∧
      h.need b = max (f.need a) (f.cost a + (g a).need b) ∧
      h.cost b = f.cost a + (g a).cost b) :
    Decodes (decode >>= k) h := by
  intro s b s'
  rw [hd.bind_eq_ok hk]
  constructor
  · rintro ⟨a, x, y, hx, hy, hbytes, hneed, hcost⟩
    obtain ⟨hform, hn, hc⟩ := hjoin a b x y hx hy
    rw [← hn] at hneed
    rw [← hc] at hcost
    exact ⟨x ++ y, hform, hbytes, hneed, hcost⟩
  · rintro ⟨z, hz, hbytes, hneed, hcost⟩
    obtain ⟨a, x, y, hx, hy, rfl⟩ := hsplit b z hz
    obtain ⟨-, hn, hc⟩ := hjoin a b x y hx hy
    rw [hn] at hneed
    rw [hc] at hcost
    exact ⟨a, x, y, hx, hy, hbytes, hneed, hcost⟩

/-- What is decoded may be given another shape. -/
theorem Decodes.map (hd : Decodes decode f) {g : α → β} {h : Format β}
    (hsplit : ∀ b x, h.form b x → ∃ a, g a = b ∧ f.form a x)
    (hjoin : ∀ a x, f.form a x →
      h.form (g a) x ∧ h.need (g a) = f.need a ∧ h.cost (g a) = f.cost a) :
    Decodes (g <$> decode) h := by
  intro s b s'
  rw [map_eq_ok]
  constructor
  · rintro ⟨a, ha, rfl⟩
    obtain ⟨x, hx, hbytes, hneed, hcost⟩ := (hd _ _ _).mp ha
    obtain ⟨hform, hn, hc⟩ := hjoin a x hx
    rw [← hn] at hneed
    rw [← hc] at hcost
    exact ⟨x, hform, hbytes, hneed, hcost⟩
  · rintro ⟨x, hx, hbytes, hneed, hcost⟩
    obtain ⟨a, rfl, ha⟩ := hsplit b x hx
    obtain ⟨-, hn, hc⟩ := hjoin a x ha
    rw [hn] at hneed
    rw [hc] at hcost
    exact ⟨a, (hd _ _ _).mpr ⟨x, ha, hbytes, hneed, hcost⟩, rfl⟩

/-! ## Nothing read -/

namespace Format

/-- One value, for which there is nothing to read. -/
def only (a : α) : Format α where
  form b x := b = a ∧ x = []
  need _ := 0
  cost _ := 0
  cost_le_need _ := Nat.le_refl _

/-- No value at all. -/
def never : Format α where
  form _ _ := False
  need _ := 0
  cost _ := 0
  cost_le_need _ := Nat.le_refl _

/-- A type by the fields it is made of. -/
def comap (e : β → α) (f : Format α) : Format β where
  form b := f.form (e b)
  need b := f.need (e b)
  cost b := f.cost (e b)
  cost_le_need b := f.cost_le_need (e b)

/-- A claim on the limit. -/
def claimed (n : ℕ) : Format Unit where
  form _ x := x = []
  need _ := n
  cost _ := n
  cost_le_need _ := Nat.le_refl _

end Format

theorem decodes_pure (a : α) : Decodes (pure a) (Format.only a) := by
  intro s b s'
  constructor
  · intro h
    cases h
    exact ⟨[], ⟨rfl, rfl⟩, rfl, Nat.zero_le _, rfl⟩
  · rintro ⟨x, ⟨rfl, rfl⟩, hbytes, -, hcost⟩
    rw [show s = s' from Input.ext hbytes hcost.symm]
    rfl

theorem decodes_throw (e : DecodeError) : Decodes (throw e : Decoder α) Format.never := by
  intro s b s'
  constructor
  · intro h
    cases h
  · rintro ⟨x, hx, -⟩
    exact hx.elim

theorem decodes_claim (n : ℕ) : Decodes (claim n) (Format.claimed n) := by
  intro s u s'
  unfold claim
  constructor
  · intro h
    split at h
    · next hle =>
        cases h
        exact ⟨[], rfl, rfl, hle, Nat.sub_add_cancel hle⟩
    · cases h
  · rintro ⟨x, rfl, hbytes, hneed, hcost⟩
    have hneed' : n ≤ s.budget := hneed
    have hcost' : s'.budget + n = s.budget := hcost
    have hs : s' = { s with budget := s.budget - n } :=
      Input.ext hbytes.symm (Nat.eq_sub_of_add_eq hcost')
    rw [if_pos hneed', hs]

/-! ## Bytes -/

/-- Bytes as they are, claimed before or not. -/
def Format.bytes (n claimed : ℕ) : Format (Vector UInt8 n) where
  form v x := x = v.toList
  need _ := claimed
  cost _ := claimed
  cost_le_need _ := Nat.le_refl _

theorem decodes_read (n : ℕ) : Decodes (read n) (Format.bytes n 0) := by
  intro s v s'
  unfold read
  constructor
  · intro h
    split at h
    · next hlen =>
        cases h
        refine ⟨s.bytes.take n, rfl, (List.take_append_drop n s.bytes).symm,
          Nat.zero_le _, rfl⟩
    · cases h
  · rintro ⟨x, rfl, hbytes, -, hcost⟩
    have htake : s.bytes.take n = v.toList := by
      rw [hbytes]
      exact List.take_left' (by simp)
    have hdrop : s.bytes.drop n = s'.bytes := by
      rw [hbytes]
      exact List.drop_left' (by simp)
    have hs : s' = { s with bytes := s.bytes.drop n } := Input.ext hdrop.symm hcost
    rw [dif_pos (by rw [htake]; simp), hs]
    simp only [htake]
    rfl

theorem decodes_array (n : ℕ) : Decodes (decodeArray n) (Format.bytes n n) := by
  refine (decodes_claim n).bind (fun _ => decodes_read n) (fun v z hz => ?_)
    fun _ v x y hx hy => ?_
  · exact ⟨(), [], z, rfl, hz, rfl⟩
  · cases hx
    exact ⟨hy, (Nat.max_eq_right (Nat.le_add_right n 0)).symm, rfl⟩

theorem encodes_array (n claimed : ℕ) : Encodes Vector.toList (Format.bytes n claimed) :=
  fun _ _ => rfl

/-- A byte. -/
def Format.u8 : Format UInt8 where
  form b x := x = [b]
  need _ := 1
  cost _ := 1
  cost_le_need _ := Nat.le_refl _

theorem toList_eq_singleton (v : Vector UInt8 1) : v.toList = [v.get ⟨0, Nat.one_pos⟩] := by
  refine List.ext_getElem (by simp) fun i hi _ => ?_
  obtain rfl : i = 0 := by simpa using hi
  exact Vector.getElem_toList _

theorem decodes_u8 : Decodes decodeU8 Format.u8 := by
  have hmap : decodeU8 = (fun v => v[0]) <$> decodeArray 1 := by
    simp [decodeU8, decodeArray]
  rw [hmap]
  refine (decodes_array 1).map (g := fun v => v[0]) (fun b x hx => ?_) fun v x hx => ?_
  · exact ⟨⟨#[b], rfl⟩, rfl, hx⟩
  · exact ⟨hx.trans (toList_eq_singleton v), rfl, rfl⟩

theorem encodes_u8 : Encodes (fun b => [b]) Format.u8 := fun _ _ => rfl

/-! ## Numbers -/

@[simp] theorem length_bigEndian (width n : ℕ) : (bigEndian width n).length = width := by
  induction width with
  | zero => rfl
  | succ width ih => rw [bigEndian, List.length_cons, ih]

theorem ofBytes_bigEndian (width n : ℕ) :
    BigEndian.ofBytes (bigEndian width n) = n % 256 ^ width := by
  induction width with
  | zero => exact (Nat.mod_one n).symm
  | succ width ih =>
      have hpow := Nat.mod_pow_succ (x := n) (b := 256) (k := width)
      rw [bigEndian, BigEndian.ofBytes, length_bigEndian, ih, hpow, Nat.add_comm,
        UInt8.toNat_ofNat']

theorem bigEndian_ofBytes (bs : List UInt8) :
    bigEndian bs.length (BigEndian.ofBytes bs) = bs :=
  BigEndian.ofBytes_injective (length_bigEndian _ _) <| by
    rw [ofBytes_bigEndian, Nat.mod_eq_of_lt (BigEndian.ofBytes_lt bs)]

/-- A number in so many bytes, claimed before. -/
def Format.bigEndian (n : ℕ) : Format ℕ where
  form m y := y.length = n ∧ BigEndian.ofBytes y = m
  need _ := 0
  cost _ := 0
  cost_le_need _ := Nat.le_refl _

theorem Format.lt_of_bigEndian {m n : ℕ} {y : List UInt8}
    (h : (Format.bigEndian n).form m y) : m < 256 ^ n := by
  have hlt := BigEndian.ofBytes_lt y
  rwa [h.1, h.2] at hlt

theorem decodes_readBigEndian (n : ℕ) :
    Decodes (readBigEndian n) (Format.bigEndian n) := by
  have hmap : readBigEndian n = (fun bs => BigEndian.ofBytes bs.toList) <$> read n := by
    simp [readBigEndian]
  rw [hmap]
  refine (decodes_read n).map (fun m x hx => ?_) fun v x hx => ?_
  · exact ⟨⟨x.toArray, hx.1⟩, hx.2, rfl⟩
  · cases hx
    exact ⟨⟨by simp, rfl⟩, rfl, rfl⟩

/-- What a tag says about the bytes after it. -/
def Format.afterTag (width : ℕ) (tag : UInt8) : Format ℕ :=
  if tag < 251 then .only tag.toNat
  else if tag = 251 ∧ 2 ≤ width then .bigEndian 2
  else if tag = 252 ∧ 4 ≤ width then .bigEndian 4
  else if tag = 253 ∧ 8 ≤ width then .bigEndian 8
  else .never

@[simp] theorem Format.need_afterTag (width : ℕ) (tag : UInt8) (n : ℕ) :
    (Format.afterTag width tag).need n = 0 := by
  unfold Format.afterTag
  split_ifs <;> rfl

@[simp] theorem Format.cost_afterTag (width : ℕ) (tag : UInt8) (n : ℕ) :
    (Format.afterTag width tag).cost n = 0 := by
  unfold Format.afterTag
  split_ifs <;> rfl

/-- A number with its tag, or a tag that is the number, claimed before or not. -/
def Format.varint (width claimed : ℕ) : Format ℕ where
  form n z := ∃ tag y, z = tag :: y ∧ (Format.afterTag width tag).form n y
  need _ := claimed
  cost _ := claimed
  cost_le_need _ := Nat.le_refl _

theorem decodes_afterTag (width : ℕ) (tag : UInt8) :
    Decodes (decodeAfterTag width tag) (Format.afterTag width tag) := by
  unfold decodeAfterTag Format.afterTag
  split_ifs
  · exact decodes_pure _
  · exact decodes_readBigEndian 2
  · exact decodes_readBigEndian 4
  · exact decodes_readBigEndian 8
  · exact decodes_throw _

theorem decodes_varint (width : ℕ) :
    Decodes (decodeVarint width) (Format.varint width width) := by
  have hread : Decodes (read 1 >>= fun tag => decodeAfterTag width tag[0])
      (Format.varint width 0) := by
    refine (decodes_read 1).bind (fun tag => decodes_afterTag width tag[0])
      (fun n z hz => ?_) fun tag n x y hx hy => ?_
    · obtain ⟨tag, y, rfl, hy⟩ := hz
      exact ⟨⟨#[tag], rfl⟩, [tag], y, rfl, hy, rfl⟩
    · refine ⟨⟨tag[0], y, ?_, hy⟩, by simp [Format.varint, Format.bytes],
        by simp [Format.varint, Format.bytes]⟩
      rw [show x = [tag[0]] from hx.trans (toList_eq_singleton tag)]
      rfl
  refine (decodes_claim width).bind (fun _ => hread) (fun n z hz => ?_)
    fun _ n x y hx hy => ?_
  · exact ⟨(), [], z, rfl, hz, rfl⟩
  · cases hx
    exact ⟨hy, (Nat.max_eq_right (Nat.le_add_right width 0)).symm, rfl⟩

/-- The encoder's form of a number, which is the shortest. -/
theorem form_encodeVarint {width claimed n : ℕ} (hw : width = 4 ∨ width = 8)
    (hn : n < 256 ^ width) : (Format.varint width claimed).form n (encodeVarint n) := by
  have hbig : ∀ k, n < 256 ^ k → (Format.bigEndian k).form n (bigEndian k n) := fun k hk =>
    ⟨length_bigEndian k n, by rw [ofBytes_bigEndian, Nat.mod_eq_of_lt hk]⟩
  unfold encodeVarint
  split_ifs with h1 h2 h3
  · refine ⟨_, [], rfl, ?_⟩
    have hnat : (UInt8.ofNat n).toNat = n :=
      UInt8.toNat_ofNat_of_lt' (Nat.lt_trans h1 (by decide))
    have hlt : UInt8.ofNat n < 251 := by
      rw [UInt8.lt_iff_toNat_lt, hnat]
      exact h1
    rw [Format.afterTag, if_pos hlt]
    exact ⟨hnat.symm, rfl⟩
  · refine ⟨251, _, rfl, ?_⟩
    rw [Format.afterTag, if_neg (by decide), if_pos ⟨rfl, by omega⟩]
    exact hbig 2 h2
  · refine ⟨252, _, rfl, ?_⟩
    rw [Format.afterTag, if_neg (by decide), if_neg (by simp), if_pos ⟨rfl, by omega⟩]
    exact hbig 4 h3
  · refine ⟨253, _, rfl, ?_⟩
    obtain rfl | rfl := hw
    · exact absurd hn h3
    · rw [Format.afterTag, if_neg (by decide), if_neg (by simp), if_neg (by simp),
        if_pos ⟨rfl, Nat.le_refl 8⟩]
      exact hbig 8 hn

/-- A `u32`. -/
def Format.u32 : Format UInt32 := (Format.varint 4 4).comap UInt32.toNat

theorem Format.lt_of_varint {claimed n : ℕ} {x : List UInt8}
    (h : (Format.varint 4 claimed).form n x) : n < 2 ^ 32 := by
  obtain ⟨tag, y, -, hy⟩ := h
  unfold Format.afterTag at hy
  split_ifs at hy with h1 h2 h3 h4
  · have hlt := tag.toNat_lt
    obtain ⟨rfl, -⟩ := hy
    omega
  · have hlt : n < 2 ^ 16 := Format.lt_of_bigEndian hy
    omega
  · exact Format.lt_of_bigEndian hy
  · exact absurd h4.2 (by decide)
  · exact hy.elim

theorem decodes_u32 : Decodes decodeU32 Format.u32 := by
  refine (decodes_varint 4).map (fun b x hx => ?_) fun n x hx => ?_
  · exact ⟨b.toNat, UInt32.ofNat_toNat, hx⟩
  · have hn : (UInt32.ofNat n).toNat = n := UInt32.toNat_ofNat_of_lt' (Format.lt_of_varint hx)
    have hform : (Format.varint 4 4).form (UInt32.ofNat n).toNat x := by rwa [hn]
    exact ⟨hform, rfl, rfl⟩

theorem encodes_u32 : Encodes (fun n => encodeVarint n.toNat) Format.u32 := fun n _ =>
  (form_encodeVarint (Or.inl rfl) n.toNat_lt : (Format.varint 4 4).form n.toNat _)

/-- A number at the front of the bytes is not in a longer form than it needs. -/
def IsShortest : List UInt8 → Prop
  | [] => True
  | tag :: bs =>
      (tag = 251 → 251 ≤ BigEndian.ofBytes (bs.take 2)) ∧
      (tag = 252 → 2 ^ 16 ≤ BigEndian.ofBytes (bs.take 4)) ∧
      (tag = 253 → 2 ^ 32 ≤ BigEndian.ofBytes (bs.take 8))

theorem length_encodeVarint (n : ℕ) : (encodeVarint n).length =
    if n < 251 then 1 else if n < 2 ^ 16 then 3 else if n < 2 ^ 32 then 5 else 9 := by
  unfold encodeVarint
  split_ifs <;> simp

/-- A tagged number is as the encoder writes it from the least number on that the encoder
writes with this tag. -/
theorem cons_eq_encodeVarint_iff (low : ℕ) {tag : UInt8} {n : ℕ} {y : List UInt8}
    (hy : BigEndian.ofBytes y = n)
    (hlow : n < low → (encodeVarint n).length ≤ y.length)
    (hhigh : low ≤ n → encodeVarint n = tag :: bigEndian y.length n) :
    tag :: y = encodeVarint n ↔ low ≤ n := by
  constructor
  · intro h
    refine Nat.le_of_not_lt fun hlt => ?_
    have hlen := hlow hlt
    rw [← h, List.length_cons] at hlen
    omega
  · intro hle
    rw [hhigh hle, ← hy, bigEndian_ofBytes]

/-- Of the forms of a number, the encoder's is the one that is not longer than it
needs. -/
theorem eq_encodeVarint_iff {claimed n : ℕ} {x : List UInt8} (rest : List UInt8)
    (h : (Format.varint 8 claimed).form n x) :
    x = encodeVarint n ↔ IsShortest (x ++ rest) := by
  obtain ⟨tag, y, rfl, hy⟩ := h
  have hsplit : ∀ k, (Format.bigEndian k).form n y →
      BigEndian.ofBytes ((y ++ rest).take k) = n := fun k hk => by
    rw [List.take_left' hk.1, hk.2]
  rw [List.cons_append, IsShortest]
  unfold Format.afterTag at hy
  split_ifs at hy with h1 h2 h3 h4
  · -- the tag is the number
    obtain ⟨rfl, rfl⟩ := hy
    have htag : tag.toNat < 251 := UInt8.lt_iff_toNat_lt.mp h1
    refine iff_of_true ?_ ⟨?_, ?_, ?_⟩
    · rw [encodeVarint, if_pos htag, UInt8.ofNat_toNat]
    · rintro rfl
      exact absurd h1 (by decide)
    · rintro rfl
      exact absurd h1 (by decide)
    · rintro rfl
      exact absurd h1 (by decide)
  · obtain ⟨rfl, -⟩ := h2
    have hlen : y.length = 2 := hy.1
    have hlt : n < 2 ^ 16 := Format.lt_of_bigEndian hy
    rw [hsplit 2 hy, cons_eq_encodeVarint_iff 251 hy.2 (fun hn => ?_) fun hn => ?_]
    · simp
    · rw [length_encodeVarint, if_pos hn, hlen]
      decide
    · rw [encodeVarint, if_neg (Nat.not_lt.mpr hn), if_pos hlt, hlen]
  · obtain ⟨rfl, -⟩ := h3
    have hlen : y.length = 4 := hy.1
    have hlt : n < 2 ^ 32 := Format.lt_of_bigEndian hy
    rw [hsplit 4 hy,
      cons_eq_encodeVarint_iff (2 ^ 16) hy.2 (fun hn => ?_) fun hn => ?_]
    · simp
    · rw [length_encodeVarint, if_pos hn, hlen]
      split_ifs <;> decide
    · rw [encodeVarint, if_neg (by omega), if_neg (Nat.not_lt.mpr hn), if_pos hlt, hlen]
  · obtain ⟨rfl, -⟩ := h4
    have hlen : y.length = 8 := hy.1
    rw [hsplit 8 hy,
      cons_eq_encodeVarint_iff (2 ^ 32) hy.2 (fun hn => ?_) fun hn => ?_]
    · simp
    · rw [length_encodeVarint, if_pos hn, hlen]
      split_ifs <;> decide
    · rw [encodeVarint, if_neg (by omega), if_neg (by omega),
        if_neg (Nat.not_lt.mpr hn), hlen]
  · exact hy.elim

/-! ## Fields in order -/

namespace Format

/-- Two fields. -/
def pair (f : Format α) (g : Format β) : Format (α × β) where
  form p z := ∃ x y, f.form p.1 x ∧ g.form p.2 y ∧ z = x ++ y
  need p := max (f.need p.1) (f.cost p.1 + g.need p.2)
  cost p := f.cost p.1 + g.cost p.2
  cost_le_need p := by
    have h := g.cost_le_need p.2
    omega

end Format

theorem Decodes.pair (hd : Decodes decode f) {second : Decoder β} {g : Format β}
    (he : Decodes second g) : Decodes (decodePair decode second) (f.pair g) := by
  have hpair : ∀ a : α, Decodes (Prod.mk a <$> second) ((Format.only a).pair g) := by
    intro a
    refine he.map (fun p x hx => ?_) fun b x hx => ?_
    · obtain ⟨y, z, ⟨ha, rfl⟩, hz, rfl⟩ := hx
      exact ⟨p.2, Prod.ext ha.symm rfl, hz⟩
    · exact ⟨⟨[], x, ⟨rfl, rfl⟩, hx, rfl⟩, by simp [Format.pair, Format.only],
        by simp [Format.pair, Format.only]⟩
  have hbind : decodePair decode second = decode >>= fun a => Prod.mk a <$> second := by
    simp [decodePair]
  rw [hbind]
  refine hd.bind hpair (fun p z hz => ?_) fun a p x y hx hy => ?_
  · obtain ⟨x, y, hx, hy, rfl⟩ := hz
    exact ⟨p.1, x, y, hx, ⟨[], y, ⟨rfl, rfl⟩, hy, rfl⟩, rfl⟩
  · obtain ⟨_, _, ⟨rfl, rfl⟩, hy, rfl⟩ := hy
    exact ⟨⟨x, _, hx, hy, rfl⟩, by simp [Format.pair, Format.only],
      by simp [Format.pair, Format.only]⟩

theorem Encodes.pair {encode : α → List UInt8} (he : Encodes encode f)
    {second : β → List UInt8} {g : Format β} (hs : Encodes second g) :
    Encodes (fun p => encode p.1 ++ second p.2) (f.pair g) := by
  intro p hneed
  have hneed' : max (f.need p.1) (f.cost p.1 + g.need p.2) < 2 ^ 64 := hneed
  exact ⟨_, _, he p.1 (by omega), hs p.2 (by omega), rfl⟩

/-- A type whose values are their fields. -/
theorem Decodes.comap (hd : Decodes decode f) {mk : α → β} {e : β → α}
    (hmk : ∀ b, mk (e b) = b) (he : ∀ a, e (mk a) = a) :
    Decodes (mk <$> decode) (f.comap e) := by
  refine hd.map (fun b x hx => ⟨e b, hmk b, hx⟩) fun a x hx => ?_
  have ha : (f.comap e).form (mk a) x := by
    show f.form (e (mk a)) x
    rwa [he]
  exact ⟨ha, congrArg f.need (he a), congrArg f.cost (he a)⟩

theorem Encodes.comap {encode : α → List UInt8} (h : Encodes encode f) (e : β → α) :
    Encodes (fun b => encode (e b)) (f.comap e) := fun b hneed => h (e b) hneed

/-! ## Variants -/

namespace Format

/-- `Option`. -/
def option (f : Format α) : Format (Option α) where
  form
    | none, x => x = [0]
    | some a, x => ∃ y, x = 1 :: y ∧ f.form a y
  need o := 1 + o.elim 0 f.need
  cost o := 1 + o.elim 0 f.cost
  cost_le_need
    | none => Nat.le_refl _
    | some a => Nat.add_le_add_left (f.cost_le_need a) 1

/-- A type with two variants. -/
def variant (f : Format α) (g : Format β) : Format (α ⊕ β) where
  form
    | .inl a, z => ∃ x y, (varint 4 4).form 0 x ∧ f.form a y ∧ z = x ++ y
    | .inr b, z => ∃ x y, (varint 4 4).form 1 x ∧ g.form b y ∧ z = x ++ y
  need v := 4 + v.elim f.need g.need
  cost v := 4 + v.elim f.cost g.cost
  cost_le_need
    | .inl a => Nat.add_le_add_left (f.cost_le_need a) 4
    | .inr b => Nat.add_le_add_left (g.cost_le_need b) 4

end Format

/-- What the tag of an `Option` says about the bytes after it. -/
def Format.afterOptionTag (f : Format α) (tag : UInt8) : Format (Option α) :=
  if tag = 0 then .only none
  else if tag = 1 then
    { form := fun o x => ∃ a, o = some a ∧ f.form a x
      need := fun o => o.elim 0 f.need
      cost := fun o => o.elim 0 f.cost
      cost_le_need := fun
        | none => Nat.le_refl _
        | some a => f.cost_le_need a }
  else .never

theorem Decodes.option (hd : Decodes decode f) :
    Decodes (decodeOption decode) f.option := by
  refine decodes_u8.bind (g := f.afterOptionTag) (fun tag => ?_) (fun o z hz => ?_)
    fun tag o x y hx hy => ?_
  · unfold Format.afterOptionTag
    split_ifs
    · exact decodes_pure none
    · refine hd.map (fun o x hx => ?_) fun a x hx => ⟨⟨a, rfl, hx⟩, rfl, rfl⟩
      obtain ⟨a, rfl, ha⟩ := hx
      exact ⟨a, rfl, ha⟩
    · exact decodes_throw _
  · cases o with
    | none => exact ⟨0, [0], [], rfl, ⟨rfl, rfl⟩, hz⟩
    | some a =>
        obtain ⟨y, rfl, hy⟩ := hz
        exact ⟨1, [1], y, rfl, ⟨a, rfl, hy⟩, rfl⟩
  · cases hx
    unfold Format.afterOptionTag at hy ⊢
    split_ifs at hy ⊢ with h0 h1
    · obtain ⟨rfl, rfl⟩ := hy
      exact ⟨h0 ▸ rfl, rfl, rfl⟩
    · obtain ⟨a, rfl, ha⟩ := hy
      refine ⟨⟨y, h1 ▸ rfl, ha⟩, ?_, rfl⟩
      show 1 + f.need a = max 1 (1 + f.need a)
      omega
    · exact hy.elim

/-- What the tag of a variant says about the bytes after it. -/
def Format.afterVariantTag (f : Format α) (g : Format β) (tag : ℕ) : Format (α ⊕ β) :=
  if tag = 0 then
    { form := fun v x => ∃ a, v = .inl a ∧ f.form a x
      need := fun v => v.elim f.need fun _ => 0
      cost := fun v => v.elim f.cost fun _ => 0
      cost_le_need := fun
        | .inl a => f.cost_le_need a
        | .inr _ => Nat.le_refl _ }
  else if tag = 1 then
    { form := fun v x => ∃ b, v = .inr b ∧ g.form b x
      need := fun v => v.elim (fun _ => 0) g.need
      cost := fun v => v.elim (fun _ => 0) g.cost
      cost_le_need := fun
        | .inl _ => Nat.le_refl _
        | .inr b => g.cost_le_need b }
  else .never

theorem Decodes.variant (hd : Decodes decode f) {second : Decoder β} {g : Format β}
    (he : Decodes second g) : Decodes (decodeVariant decode second) (f.variant g) := by
  refine (decodes_varint 4).bind (g := f.afterVariantTag g) (fun tag => ?_)
    (fun v z hz => ?_) fun tag v x y hx hy => ?_
  · unfold Format.afterVariantTag
    split_ifs
    · refine hd.map (fun v x hx => ?_) fun a x hx => ⟨⟨a, rfl, hx⟩, rfl, rfl⟩
      obtain ⟨a, rfl, ha⟩ := hx
      exact ⟨a, rfl, ha⟩
    · refine he.map (fun v x hx => ?_) fun b x hx => ⟨⟨b, rfl, hx⟩, rfl, rfl⟩
      obtain ⟨b, rfl, hb⟩ := hx
      exact ⟨b, rfl, hb⟩
    · exact decodes_throw _
  · cases v with
    | inl a =>
        obtain ⟨x, y, hx, hy, rfl⟩ := hz
        exact ⟨0, x, y, hx, ⟨a, rfl, hy⟩, rfl⟩
    | inr b =>
        obtain ⟨x, y, hx, hy, rfl⟩ := hz
        exact ⟨1, x, y, hx, ⟨b, rfl, hy⟩, rfl⟩
  · unfold Format.afterVariantTag at hy ⊢
    split_ifs at hy ⊢ with h0 h1
    · subst h0
      obtain ⟨a, rfl, ha⟩ := hy
      refine ⟨⟨x, y, hx, ha, rfl⟩, ?_, rfl⟩
      show 4 + f.need a = max 4 (4 + f.need a)
      omega
    · subst h1
      obtain ⟨b, rfl, hb⟩ := hy
      refine ⟨⟨x, y, hx, hb, rfl⟩, ?_, rfl⟩
      show 4 + g.need b = max 4 (4 + g.need b)
      omega
    · exact hy.elim

theorem Encodes.variant {encode : α → List UInt8} (he : Encodes encode f)
    {second : β → List UInt8} {g : Format β} (hs : Encodes second g) :
    Encodes (fun v => v.elim (fun a => encodeVarint 0 ++ encode a)
      fun b => encodeVarint 1 ++ second b) (f.variant g) := by
  intro v hneed
  cases v with
  | inl a =>
      have hneed' : 4 + f.need a < 2 ^ 64 := hneed
      exact ⟨_, _, form_encodeVarint (Or.inl rfl) (by decide), he a (by omega), rfl⟩
  | inr b =>
      have hneed' : 4 + g.need b < 2 ^ 64 := hneed
      exact ⟨_, _, form_encodeVarint (Or.inl rfl) (by decide), hs b (by omega), rfl⟩

/-! ## Lists -/

namespace Format

variable (f : Format α)

/-- The items, one after the other. -/
def itemsForm : List α → List UInt8 → Prop
  | [], x => x = []
  | a :: l, x => ∃ y z, f.form a y ∧ itemsForm l z ∧ x = y ++ z

/-- An item is decoded while all the items after it are claimed. -/
def itemsNeed (size : ℕ) : List α → ℕ
  | [] => 0
  | a :: l => max (f.need a + l.length * size) (f.cost a + itemsNeed size l)

def itemsCost : List α → ℕ
  | [] => 0
  | a :: l => f.cost a + itemsCost l

theorem itemsCost_le_itemsNeed (size : ℕ) (l : List α) :
    f.itemsCost l ≤ f.itemsNeed size l := by
  induction l with
  | nil => exact Nat.le_refl 0
  | cons a l ih =>
      rw [itemsCost, itemsNeed]
      omega

theorem length_le_itemsCost (hpos : ∀ a, 0 < f.cost a) (l : List α) :
    l.length ≤ f.itemsCost l := by
  induction l with
  | nil => exact Nat.le_refl 0
  | cons a l ih =>
      have h := hpos a
      rw [itemsCost, List.length_cons]
      omega

theorem need_le_itemsNeed (size : ℕ) {l : List α} {a : α} (ha : a ∈ l) :
    f.need a ≤ f.itemsNeed size l := by
  induction l with
  | nil => cases ha
  | cons b l ih =>
      rw [itemsNeed]
      rcases List.mem_cons.mp ha with rfl | hmem
      · omega
      · have h := ih hmem
        omega

/-- So many items. -/
def items (size n : ℕ) : Format (List α) where
  form l x := l.length = n ∧ f.itemsForm l x
  need l := max (n * size) (f.itemsNeed size l)
  cost l := f.itemsCost l
  cost_le_need l := by
    have h := f.itemsCost_le_itemsNeed size l
    omega

/-- A list, its length first. -/
def vec (size : ℕ) : Format (List α) where
  form l x := ∃ y z, (varint 8 8).form l.length y ∧ f.itemsForm l z ∧ x = y ++ z
  need l := 8 + max (l.length * size) (f.itemsNeed size l)
  cost l := 8 + f.itemsCost l
  cost_le_need l := by
    have h := f.itemsCost_le_itemsNeed size l
    omega

end Format

/-- The loop, which starts with all its items claimed. -/
theorem decodeItems_eq_ok (hd : Decodes decode f) {size n : ℕ} {l : List α} :
    decodeItems size decode n s = .ok (l, s') ↔
      ∃ x, (l.length = n ∧ f.itemsForm l x) ∧ s.bytes = x ++ s'.bytes ∧
        f.itemsNeed size l ≤ s.budget + n * size ∧
        s'.budget + f.itemsCost l = s.budget + n * size := by
  induction n generalizing s l with
  | zero =>
      rw [decodeItems, decodes_pure [] s l s', Nat.zero_mul, Nat.add_zero]
      constructor
      · rintro ⟨x, ⟨rfl, rfl⟩, hbytes, -, hcost⟩
        exact ⟨[], ⟨rfl, rfl⟩, hbytes, Nat.zero_le _, hcost⟩
      · rintro ⟨x, ⟨hlen, hform⟩, hbytes, -, hcost⟩
        obtain rfl := List.length_eq_zero_iff.mp hlen
        exact ⟨x, ⟨rfl, hform⟩, hbytes, Nat.zero_le _, hcost⟩
  | succ n ih =>
      have hmul : (n + 1) * size = n * size + size := Nat.succ_mul n size
      rw [decodeItems, bind_eq_ok]
      constructor
      · rintro ⟨u, s₁, hunclaim, h⟩
        cases hunclaim
        obtain ⟨a, s₂, ha, h⟩ := bind_eq_ok.mp h
        obtain ⟨l', s₃, hl, hpure⟩ := bind_eq_ok.mp h
        cases hpure
        obtain ⟨y, hy, hbytes, hneed, hcost⟩ := (hd _ _ _).mp ha
        obtain ⟨z, ⟨rfl, hz⟩, hbytes', hneed', hcost'⟩ := ih.mp hl
        have hneed₁ : f.need a ≤ s.budget + size := hneed
        have hcost₁ : s₂.budget + f.cost a = s.budget + size := hcost
        refine ⟨y ++ z, ⟨rfl, y, z, hy, hz, rfl⟩, ?_, ?_, ?_⟩
        · rw [List.append_assoc, ← hbytes']
          exact hbytes
        · rw [Format.itemsNeed]
          omega
        · rw [Format.itemsCost]
          omega
      · rintro ⟨x, ⟨hlen, hform⟩, hbytes, hneed, hcost⟩
        cases l with
        | nil => cases hlen
        | cons a l =>
            obtain ⟨y, z, hy, hz, rfl⟩ := hform
            have hlen' : l.length = n := Nat.succ.inj hlen
            rw [Format.itemsNeed, hlen'] at hneed
            rw [Format.itemsCost] at hcost
            have hle := f.cost_le_need a
            refine ⟨(), ⟨s.bytes, s.budget + size⟩, rfl, bind_eq_ok.mpr
              ⟨a, ⟨z ++ s'.bytes, s.budget + size - f.cost a⟩, (hd _ _ _).mpr
                ⟨y, hy, ?_, ?_, ?_⟩, bind_eq_ok.mpr ⟨l, s', ih.mpr
                  ⟨z, ⟨hlen', hz⟩, rfl, ?_, ?_⟩, rfl⟩⟩⟩
            · show s.bytes = y ++ (z ++ s'.bytes)
              rw [hbytes, List.append_assoc]
            · show f.need a ≤ s.budget + size
              omega
            · show s.budget + size - f.cost a + f.cost a = s.budget + size
              omega
            · show f.itemsNeed size l ≤ s.budget + size - f.cost a + n * size
              omega
            · show s'.budget + f.itemsCost l = s.budget + size - f.cost a + n * size
              omega

theorem decodes_items (hd : Decodes decode f) (size n : ℕ) :
    Decodes (claim (n * size) >>= fun _ => decodeItems size decode n)
      (f.items size n) := by
  intro s l s'
  rw [bind_eq_ok]
  constructor
  · rintro ⟨u, s₁, hclaim, h⟩
    obtain ⟨_, rfl, hbytes, hneed, hcost⟩ := (decodes_claim _ _ _ _).mp hclaim
    obtain ⟨x, hx, hbytes', hneed', hcost'⟩ := (decodeItems_eq_ok hd).mp h
    have hneed₁ : n * size ≤ s.budget := hneed
    have hcost₁ : s₁.budget + n * size = s.budget := hcost
    refine ⟨x, hx, hbytes.trans hbytes', ?_, ?_⟩
    · show max (n * size) (f.itemsNeed size l) ≤ s.budget
      omega
    · show s'.budget + f.itemsCost l = s.budget
      omega
  · rintro ⟨x, hx, hbytes, hneed, hcost⟩
    have hneed' : max (n * size) (f.itemsNeed size l) ≤ s.budget := hneed
    have hcost' : s'.budget + f.itemsCost l = s.budget := hcost
    refine ⟨(), ⟨s.bytes, s.budget - n * size⟩, (decodes_claim _ _ _ _).mpr
      ⟨[], rfl, rfl, ?_, ?_⟩, (decodeItems_eq_ok hd).mpr ⟨x, hx, hbytes, ?_, ?_⟩⟩
    · show n * size ≤ s.budget
      omega
    · show s.budget - n * size + n * size = s.budget
      omega
    · show f.itemsNeed size l ≤ s.budget - n * size + n * size
      omega
    · show s'.budget + f.itemsCost l = s.budget - n * size + n * size
      omega

theorem Decodes.vec (hd : Decodes decode f) (size : ℕ) :
    Decodes (decodeVec size decode) (f.vec size) := by
  refine (decodes_varint 8).bind (fun len => decodes_items hd size len)
    (fun l z hz => ?_) fun len l x y hx hy => ?_
  · obtain ⟨x, y, hx, hy, rfl⟩ := hz
    exact ⟨l.length, x, y, hx, ⟨rfl, hy⟩, rfl⟩
  · obtain ⟨rfl, hy⟩ := hy
    refine ⟨⟨x, y, hx, hy, rfl⟩, ?_, rfl⟩
    show 8 + max (l.length * size) (f.itemsNeed size l) =
      max 8 (8 + max (l.length * size) (f.itemsNeed size l))
    omega

theorem itemsForm_flatMap {encode : α → List UInt8} {l : List α}
    (h : ∀ a ∈ l, f.form a (encode a)) : f.itemsForm l (l.flatMap encode) := by
  induction l with
  | nil => rfl
  | cons a l ih =>
      exact ⟨_, _, h a List.mem_cons_self, ih fun b hb => h b (List.mem_cons_of_mem a hb),
        List.flatMap_cons⟩

/-- Every item costs something, so the limit bounds the length. -/
theorem Encodes.vec {encode : α → List UInt8} (he : Encodes encode f)
    (hpos : ∀ a, 0 < f.cost a) (size : ℕ) :
    Encodes (encodeSlice encode) (f.vec size) := by
  intro l hneed
  have hneed' : 8 + max (l.length * size) (f.itemsNeed size l) < 2 ^ 64 := hneed
  have hle := f.itemsCost_le_itemsNeed size l
  have hlen := f.length_le_itemsCost hpos l
  refine ⟨_, _, form_encodeVarint (Or.inr rfl) ?_, itemsForm_flatMap fun a ha => ?_, rfl⟩
  · show l.length < 2 ^ 64
    omega
  · have hitem := f.need_le_itemsNeed size ha
    exact he a (by omega)

/-- Bytes, their length first. -/
def Format.byteVec : Format (List UInt8) where
  form l x := ∃ y, (varint 8 8).form l.length y ∧ x = y ++ l
  need l := 8 + l.length
  cost l := 8 + l.length
  cost_le_need _ := Nat.le_refl _

theorem decodes_bytes : Decodes decodeBytes Format.byteVec := by
  have htoList : ∀ len, Decodes (claim len >>= fun _ => Vector.toList <$> read len)
      { form := fun l x => l.length = len ∧ x = l
        need := fun _ => len
        cost := fun _ => len
        cost_le_need := fun _ => Nat.le_refl _ } := by
    intro len
    have hmap : (claim len >>= fun _ => Vector.toList <$> read len) =
        Vector.toList <$> decodeArray len := by simp [decodeArray]
    rw [hmap]
    refine (decodes_array len).map (fun l x hx => ?_) fun v x hx => ?_
    · exact ⟨⟨l.toArray, hx.1⟩, rfl, hx.2⟩
    · exact ⟨⟨by simp, hx⟩, rfl, rfl⟩
  have hbind : decodeBytes = decodeVarint 8 >>= fun len =>
      claim len >>= fun _ => Vector.toList <$> read len := by simp [decodeBytes]
  rw [hbind]
  refine (decodes_varint 8).bind htoList (fun l z hz => ?_) fun len l x y hx hy => ?_
  · obtain ⟨x, hx, rfl⟩ := hz
    exact ⟨l.length, x, l, hx, ⟨rfl, rfl⟩, rfl⟩
  · obtain ⟨rfl, rfl⟩ := hy
    refine ⟨⟨x, hx, rfl⟩, ?_, rfl⟩
    show 8 + y.length = max 8 (8 + y.length)
    omega

theorem encodes_bytes : Encodes encodeBytes Format.byteVec := by
  intro l hneed
  have hneed' : 8 + l.length < 2 ^ 64 := hneed
  exact ⟨_, form_encodeVarint (Or.inr rfl) (show l.length < 2 ^ 64 by omega), rfl⟩

/-! ## The whole input -/

/-- `decode_from_slice` reads what stands at the front, and says how much that was. -/
theorem decodeFromSlice_eq_ok (hd : Decodes decode f) {limit n : ℕ} {src : List UInt8}
    {a : α} : decodeFromSlice limit decode src = .ok (a, n) ↔
      ∃ x rest, src = x ++ rest ∧ x.length = n ∧ f.form a x ∧ f.need a ≤ limit := by
  unfold decodeFromSlice
  constructor
  · intro h
    cases hdec : decode ⟨src, limit⟩ with
    | error e =>
        rw [hdec] at h
        cases h
    | ok p =>
        rw [hdec] at h
        cases h
        obtain ⟨x, hx, hbytes, hneed, -⟩ := (hd _ _ _).mp hdec
        have hsrc : src = x ++ p.2.bytes := hbytes
        refine ⟨x, p.2.bytes, hsrc, ?_, hx, hneed⟩
        rw [hsrc, List.length_append, Nat.add_sub_cancel]
  · rintro ⟨x, rest, rfl, rfl, hx, hneed⟩
    rw [hd.decode_append hx hneed]
    dsimp only
    rw [List.length_append, Nat.add_sub_cancel]

/-! ## How much a byte can claim -/

/-- No byte that is written stands for more than `k` of what is claimed. -/
def Bounded (k : ℕ) (encode : α → List UInt8) (f : Format α) : Prop :=
  ∀ a, f.need a ≤ k * (encode a).length

section

variable {k : ℕ} {encode : α → List UInt8} {second : β → List UInt8} {g : Format β}

theorem bounded_array (hk : 1 ≤ k) (n : ℕ) :
    Bounded k Vector.toList (Format.bytes n n) := fun v => by
  show n ≤ k * v.toList.length
  rw [Vector.length_toList]
  exact Nat.le_mul_of_pos_left n hk

theorem one_le_length_encodeVarint (n : ℕ) : 1 ≤ (encodeVarint n).length :=
  List.length_pos_of_ne_nil (encodeVarint_ne_nil n)

theorem bounded_u32 (hk : 4 ≤ k) :
    Bounded k (fun n => encodeVarint n.toNat) Format.u32 := fun n => by
  show 4 ≤ k * (encodeVarint n.toNat).length
  calc 4 ≤ k := hk
    _ = k * 1 := (Nat.mul_one k).symm
    _ ≤ k * (encodeVarint n.toNat).length :=
      Nat.mul_le_mul_left k (one_le_length_encodeVarint _)

theorem bounded_bytes (hk : 8 ≤ k) : Bounded k encodeBytes Format.byteVec := fun l => by
  have hone := Nat.mul_le_mul_left k (one_le_length_encodeVarint l.length)
  have hrest : l.length ≤ k * l.length := Nat.le_mul_of_pos_left _ (by omega)
  show 8 + l.length ≤ k * (encodeVarint l.length ++ l).length
  rw [List.length_append, Nat.mul_add]
  omega

theorem Bounded.pair (hf : Bounded k encode f) (hg : Bounded k second g) :
    Bounded k (fun p => encode p.1 ++ second p.2) (f.pair g) := fun p => by
  have h₁ := hf p.1
  have h₂ := hg p.2
  have hle := f.cost_le_need p.1
  show max (f.need p.1) (f.cost p.1 + g.need p.2) ≤ k * (encode p.1 ++ second p.2).length
  rw [List.length_append, Nat.mul_add]
  omega

theorem Bounded.comap (hf : Bounded k encode f) (e : β → α) :
    Bounded k (fun b => encode (e b)) (f.comap e) := fun b => hf (e b)

theorem Bounded.variant (hk : 4 ≤ k) (hf : Bounded k encode f) (hg : Bounded k second g) :
    Bounded k (fun v => v.elim (fun a => encodeVarint 0 ++ encode a)
      fun b => encodeVarint 1 ++ second b) (f.variant g) := fun v => by
  cases v with
  | inl a =>
      have h := hf a
      have hone := Nat.mul_le_mul_left k (one_le_length_encodeVarint 0)
      show 4 + f.need a ≤ k * (encodeVarint 0 ++ encode a).length
      rw [List.length_append, Nat.mul_add]
      omega
  | inr b =>
      have h := hg b
      have hone := Nat.mul_le_mul_left k (one_le_length_encodeVarint 1)
      show 4 + g.need b ≤ k * (encodeVarint 1 ++ second b).length
      rw [List.length_append, Nat.mul_add]
      omega

/-- The items of a list claim no more than their bytes, even all of them at once. -/
theorem Bounded.items (hf : Bounded k encode f) {size : ℕ} (hsize : size ≤ k)
    (hne : ∀ a, encode a ≠ []) (l : List α) :
    l.length * size ≤ k * (l.flatMap encode).length ∧
      f.itemsNeed size l ≤ k * (l.flatMap encode).length := by
  induction l with
  | nil => exact ⟨by simp, Nat.zero_le _⟩
  | cons a l ih =>
      have hone : k * 1 ≤ k * (encode a).length :=
        Nat.mul_le_mul_left k (List.length_pos_of_ne_nil (hne a))
      have ha := hf a
      have hle := f.cost_le_need a
      rw [List.flatMap_cons, List.length_append, Nat.mul_add, List.length_cons, Nat.succ_mul,
        Format.itemsNeed]
      exact ⟨by omega, by omega⟩

theorem Bounded.vec (hf : Bounded k encode f) (hk : 8 ≤ k) {size : ℕ} (hsize : size ≤ k)
    (hne : ∀ a, encode a ≠ []) : Bounded k (encodeSlice encode) (f.vec size) := fun l => by
  have hone := Nat.mul_le_mul_left k (one_le_length_encodeVarint l.length)
  obtain ⟨hall, hitems⟩ := hf.items hsize hne l
  show 8 + max (l.length * size) (f.itemsNeed size l) ≤
    k * (encodeVarint l.length ++ l.flatMap encode).length
  rw [List.length_append, Nat.mul_add]
  omega

end

end Bincode

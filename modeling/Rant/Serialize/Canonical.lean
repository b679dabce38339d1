import Rant.Serialize.WireTree
/-!
# One spelling a schema

The wire header around a type, and what `i_rant_schema_wire_fields` accepts: a wire that
opens with the encoding of a schema of the grammar. An encoding says what it encodes
(`encode_inj`), so a wire denotes one schema at most and the grammar's own wires are
canonical. The check looks no further than the type, though: the bytes behind it denote
nothing.
-/

namespace Rant.Serialize

open Rant.Lib

/-! ## An encoding says what it encodes -/

variable {r r' : Bytes}

theorem writeLe_inj {n v v' : Nat} (hv : v < 256 ^ n) (hv' : v' < 256 ^ n)
    (h : writeLe n v ++ r = writeLe n v' ++ r') : v = v' ∧ r = r' := by
  obtain ⟨hw, hr⟩ := List.append_inj h (by simp)
  refine ⟨?_, hr⟩
  have hread := readLe_writeLe n v []
  rw [hw, readLe_writeLe, Nat.mod_eq_of_lt hv, Nat.mod_eq_of_lt hv', Option.some.injEq] at hread
  exact hread.symm

theorem byte_inj {v v' : Nat} (hv : v < 256) (hv' : v' < 256)
    (h : byte v ++ r = byte v' ++ r') : v = v' ∧ r = r' :=
  writeLe_inj (by rw [Nat.pow_one]; exact hv) (by rw [Nat.pow_one]; exact hv') h

/-- A name behind its length. -/
theorem name_inj {n n' : Bytes} (hn : n.length < 256) (hn' : n'.length < 256)
    (h : byte n.length ++ (n ++ r) = byte n'.length ++ (n' ++ r')) : n = n' ∧ r = r' := by
  obtain ⟨hlen, h⟩ := byte_inj hn hn' h
  exact List.append_inj h hlen

theorem options_inj {bs : Nat} : ∀ {opts opts' : List (Nat × Bytes)} {r r' : Bytes},
    opts.length = opts'.length → (∀ o ∈ opts, o.1 < 256 ^ bs ∧ o.2.length < 256) →
    (∀ o ∈ opts', o.1 < 256 ^ bs ∧ o.2.length < 256) →
    opts.flatMap (encodeOption bs) ++ r = opts'.flatMap (encodeOption bs) ++ r' →
    opts = opts' ∧ r = r'
  | [], [], _, _, _, _, _, h => ⟨rfl, h⟩
  | [], _ :: _, _, _, hlen, _, _, _ => absurd hlen.symm (Nat.succ_ne_zero _)
  | _ :: _, [], _, _, hlen, _, _, _ => absurd hlen (Nat.succ_ne_zero _)
  | (v, n) :: opts, (v', n') :: opts', r, r', hlen, hok, hok', h => by
    have ho := hok _ List.mem_cons_self
    have ho' := hok' _ List.mem_cons_self
    simp only [List.flatMap_cons, encodeOption, List.append_assoc] at h
    obtain ⟨hv, h₁⟩ := writeLe_inj ho.1 ho'.1 h
    obtain ⟨hn, h₂⟩ := name_inj ho.2 ho'.2 h₁
    obtain ⟨hopts, hr⟩ := options_inj (Nat.succ.inj hlen)
      (fun o hm => hok o (List.mem_cons_of_mem _ hm))
      (fun o hm => hok' o (List.mem_cons_of_mem _ hm)) h₂
    dsimp only at hv hn
    exact ⟨by rw [hv, hn, hopts], hr⟩

/-- Two encodings open with one kind byte only if their kinds agree. -/
theorem kind_of_encode {t t' : Ty} (h : t.encode ++ r = t'.encode ++ r') :
    t.kind = t'.kind := by
  obtain ⟨a, ha⟩ := t.encode_kind
  obtain ⟨b, hb⟩ := t'.encode_kind
  rw [ha, hb, List.append_assoc, List.append_assoc] at h
  have hc := (byte_inj t.kind.code_lt t'.kind.code_lt h).1
  have hk := Kind.ofByte_code t.kind
  rw [hc, Kind.ofByte_code] at hk
  exact (Option.some.inj hk).symm

/-- A scalar is told by its kind. -/
theorem scalar_of_kind {t : Ty} {d : Nat} {n : Bool} {k : Kind} (hok : t.Ok d n)
    (hk : t.kind = k) (hs : 0 < k.scalarSize) : t = .scalar k := by
  cases t with
  | scalar k' => rw [← hk]; rfl
  | _ => rw [← hk] at hs; exact absurd hs (Nat.lt_irrefl 0)

mutual
/-- An encoding says which type it encodes and where it ends. -/
theorem Ty.encode_same : ∀ (t t' : Ty), t.kind = t'.kind →
    ∀ (d d' : Nat) (n n' : Bool) (r r' : Bytes), t.Ok d n → t'.Ok d' n' →
      t.encode ++ r = t'.encode ++ r' → t = t' ∧ r = r'
  | .scalar k, t', hk => by
    intro d d' n n' r r' hok hok' h
    obtain rfl := scalar_of_kind hok' hk.symm hok
    exact ⟨rfl, List.append_cancel_left h⟩
  | t, .scalar k, hk => by
    intro d d' n n' r r' hok hok' h
    obtain rfl := scalar_of_kind hok hk hok'
    exact ⟨rfl, List.append_cancel_left h⟩
  | .str cap, .str cap', _ => by
    intro d d' n n' r r' hok hok' h
    simp only [Ty.encode, List.append_assoc] at h
    obtain ⟨hc, hr⟩ := writeLe_inj hok hok' (List.append_cancel_left h)
    exact ⟨by rw [hc], hr⟩
  | .vstr, .vstr, _ => by
    intro d d' n n' r r' hok hok' h
    exact ⟨rfl, List.append_cancel_left h⟩
  | .map, .map, _ => by
    intro d d' n n' r r' hok hok' h
    exact ⟨rfl, List.append_cancel_left h⟩
  | .enum b opts, .enum b' opts', _ => by
    intro d d' n n' r r' hok hok' h
    obtain ⟨-, -, hn, ho⟩ := hok
    obtain ⟨-, -, hn', ho'⟩ := hok'
    simp only [Ty.encode, List.append_assoc] at h
    obtain ⟨hb, h₁⟩ := byte_inj b.code_lt b'.code_lt (List.append_cancel_left h)
    have hbk := Kind.ofByte_code b
    rw [hb, Kind.ofByte_code] at hbk
    obtain rfl := Option.some.inj hbk
    obtain ⟨hlen, h₂⟩ := writeLe_inj hn hn' h₁
    obtain ⟨hopts, hr⟩ := options_inj hlen ho ho' h₂
    exact ⟨by rw [hopts], hr⟩
  | .arr c e, .arr c' e', _ => by
    intro d d' n n' r r' hok hok' h
    simp only [Ty.encode, List.append_assoc] at h
    obtain ⟨hc, h₁⟩ := writeLe_inj hok.2.1 hok'.2.1 (List.append_cancel_left h)
    obtain ⟨he, hr⟩ := Ty.encode_same e e' (kind_of_encode h₁) _ _ _ _ _ _ hok.2.2.1 hok'.2.2.1 h₁
    exact ⟨by rw [hc, he], hr⟩
  | .varr e, .varr e', _ => by
    intro d d' n n' r r' hok hok' h
    simp only [Ty.encode, List.append_assoc] at h
    have h₁ := List.append_cancel_left h
    obtain ⟨he, hr⟩ := Ty.encode_same e e' (kind_of_encode h₁) _ _ _ _ _ _ hok.2.1 hok'.2.1 h₁
    exact ⟨by rw [he], hr⟩
  | .struct ms, .struct ms', _ => by
    intro d d' n n' r r' hok hok' h
    obtain ⟨-, -, hlen, hms, -⟩ := hok
    obtain ⟨-, -, hlen', hms', -⟩ := hok'
    simp only [Ty.encode, List.append_assoc] at h
    obtain ⟨hl, h₁⟩ := byte_inj hlen hlen' (List.append_cancel_left h)
    obtain ⟨hms, hr⟩ := Members.encode_same ms ms' hl _ _ _ _ hms hms' h₁
    exact ⟨by rw [hms], hr⟩
  | .named m t, .named m' t', _ => by
    intro d d' n n' r r' hok hok' h
    simp only [Ty.encode, List.append_assoc] at h
    obtain ⟨hm, h₁⟩ := name_inj hok.2.1 hok'.2.1 (List.append_cancel_left h)
    obtain ⟨ht, hr⟩ := Ty.encode_same t t' (kind_of_encode h₁) _ _ _ _ _ _ hok.2.2.2 hok'.2.2.2 h₁
    exact ⟨by rw [hm, ht], hr⟩
theorem Members.encode_same : ∀ (ms ms' : Members), ms.length = ms'.length →
    ∀ (d d' : Nat) (r r' : Bytes), ms.Ok d → ms'.Ok d' →
      ms.encode ++ r = ms'.encode ++ r' → ms = ms' ∧ r = r'
  | .nil, .nil, _ => by
    intro d d' r r' _ _ h
    exact ⟨rfl, h⟩
  | .cons m t rest, .cons m' t' rest', hlen => by
    intro d d' r r' hok hok' h
    simp only [Members.encode, List.append_assoc] at h
    obtain ⟨hm, h₁⟩ := name_inj hok.1 hok'.1 h
    obtain ⟨ht, h₂⟩ := Ty.encode_same t t' (kind_of_encode h₁) _ _ _ _ _ _ hok.2.1 hok'.2.1 h₁
    obtain ⟨hrest, hr⟩ := Members.encode_same rest rest' (Nat.succ.inj hlen) _ _ _ _
      hok.2.2 hok'.2.2 h₂
    exact ⟨by rw [hm, ht, hrest], hr⟩
end

theorem Ty.encode_inj {t t' : Ty} {d d' : Nat} {n n' : Bool} (hok : t.Ok d n)
    (hok' : t'.Ok d' n') (h : t.encode ++ r = t'.encode ++ r') : t = t' ∧ r = r' :=
  Ty.encode_same t t' (kind_of_encode h) _ _ _ _ _ _ hok hok' h

/-! ## The header -/

/-- A schema of the grammar: its root's name and type. -/
structure SchemaTy where
  name : Bytes
  ty : Ty

/-- `schema := [u8 version=8][u8 root_namelen][root_name][type]`. -/
def SchemaTy.encode (sc : SchemaTy) : Bytes :=
  byte wireVersion ++ (byte sc.name.length ++ (sc.name ++ sc.ty.encode))

/-- The rules of a root: its name rides the header and never stands for a name, and its
default message fits 32 bits. -/
structure SchemaTy.Ok (sc : SchemaTy) : Prop where
  name : sc.name.length < 256
  root : sc.ty.kind ≠ .named
  ty : sc.ty.Ok 0 (decide (sc.name.length ≠ 0))
  fits : sc.ty.measure.size + sc.ty.measure.frames ≤ u32Max

/-- Every row of the root: a bare or alias root is the first row itself. -/
def SchemaTy.rows (sc : SchemaTy) : Nat :=
  if sc.ty.kind = .struct then sc.ty.rows else 1 + sc.ty.rows

/-- Where the type stands in the wire. -/
def SchemaTy.typePos (sc : SchemaTy) : Nat := 1 + 1 + sc.name.length

variable {sc : SchemaTy}

theorem SchemaTy.encode_inj {sc' : SchemaTy} (hok : sc.Ok) (hok' : sc'.Ok)
    (h : sc.encode ++ r = sc'.encode ++ r') : sc = sc' ∧ r = r' := by
  simp only [SchemaTy.encode, List.append_assoc] at h
  obtain ⟨hn, h₁⟩ := name_inj hok.name hok'.name (List.append_cancel_left h)
  obtain ⟨ht, hr⟩ := Ty.encode_inj hok.ty hok'.ty h₁
  refine ⟨?_, hr⟩
  cases sc
  cases sc'
  simp_all

variable {w : Bytes}

/-- A schema's wire stands at the front of `w`. -/
theorem schema_at : At w 0 sc.encode ↔
    At w 0 (byte wireVersion) ∧ At w 1 (byte sc.name.length) ∧ At w (1 + 1) sc.name ∧
      At w sc.typePos sc.ty.encode := by
  rw [SchemaTy.encode, at_append, at_append, at_append]
  simp only [length_writeLe, Nat.zero_add]
  rfl

/-- The kind byte tells a struct root. -/
theorem kind_code_struct (k : Kind) : k.code = 12 ↔ k = .struct := by
  cases k <;> simp [Kind.code]

theorem kind_code_named (k : Kind) : k.code = 18 ↔ k = .named := by
  cases k <;> simp [Kind.code]

/-- The version, the name's length and the name of a schema, as the readers find them. -/
theorem schema_header {sc : SchemaTy} (hok : sc.Ok) (hat : At w 0 sc.encode) :
    rdU8 w 0 = some (wireVersion, 1) ∧ rdU8 w 1 = some (sc.name.length, 1 + 1) ∧
      rdSkip w (1 + 1) sc.name.length = some sc.typePos ∧ At w (1 + 1) sc.name ∧
        At w sc.typePos sc.ty.encode := by
  obtain ⟨hv, hl, hname, hty⟩ := schema_at.mp hat
  exact ⟨rdU8_iff.mpr ⟨rfl, by decide, hv⟩, rdU8_iff.mpr ⟨rfl, hok.name, hl⟩,
    rdSkip_iff.mpr ⟨rfl, hname.le⟩, hname, hty⟩

/-- The check accepts a wire that opens with a schema of the grammar. -/
theorem wireFields_iff {n : Nat} :
    wireFields w = .ok n ↔ ∃ sc : SchemaTy, sc.Ok ∧ At w 0 sc.encode ∧ n = sc.rows := by
  constructor
  · intro h
    simp only [wireFields] at h
    split at h
    next => cases h
    next ver pos hver =>
      split at h
      next => cases h
      next hv =>
        rw [ne_eq, Decidable.not_not] at hv
        subst hv
        obtain ⟨rfl, -, hatv⟩ := rdU8_iff.mp hver
        split at h
        next => cases h
        next rl pos₁ hrl =>
          obtain ⟨rfl, hrlt, hatl⟩ := rdU8_iff.mp hrl
          split at h
          next => cases h
          next pos₂ hskip =>
            obtain ⟨rfl, hname⟩ := rdSkip_iff.mp hskip
            split at h
            next => cases h
            next k hk =>
              split at h
              next => cases h
              next hk18 =>
                split at h
                next => cases h
                next t rows p hrd =>
                  split at h
                  next => cases h
                  next hfit =>
                    obtain ⟨ty, hty, hatty, hans⟩ := (rdType_iff hname).mp hrd
                    simp only [treeAnswer, Prod.mk.injEq] at hans
                    obtain ⟨rfl, rfl, -⟩ := hans
                    have hkind : k = ty.kind.code := by
                      have := (rdU8_le (rdU8_kind hatty)).2.2
                      rw [hk, Option.some.injEq] at this
                      exact this
                    have hname' := at_take hname
                    have hlen : ((w.drop (0 + 1 + 1)).take rl).length = rl := by
                      rw [List.length_take, List.length_drop]
                      omega
                    refine ⟨⟨(w.drop (0 + 1 + 1)).take rl, ty⟩, ⟨?_, ?_, ?_, ?_⟩, ?_, ?_⟩
                    · exact hlen.symm ▸ hrlt
                    · intro hc
                      exact hk18 (hkind.trans ((kind_code_named _).mpr hc))
                    · rw [hlen]
                      exact hty
                    · exact Nat.not_lt.mp hfit
                    · rw [schema_at, SchemaTy.typePos, hlen]
                      simp only [Nat.zero_add] at hatl hname' hatty
                      exact ⟨hatv, hatl, hname', hatty⟩
                    · rw [hkind] at h
                      cases h
                      simp only [kind_code_struct, SchemaTy.rows]
  · rintro ⟨sc, hok, hat, hn⟩
    obtain ⟨h₁, h₂, h₃, hname, hty⟩ := schema_header hok hat
    have h₄ := (rdU8_le (rdU8_kind hty)).2.2
    have h₅ := (rdType_iff hty.1).mpr ⟨sc.ty, hok.ty, hty, rfl⟩
    have h18 : ¬ sc.ty.kind.code = 18 := fun hc => hok.root ((kind_code_named _).mp hc)
    have hfit := Nat.not_lt.mpr hok.fits
    simp only [wireFields, h₁, h₂, h₃, h₄, h₅, ne_eq, not_true_eq_false, if_false, if_neg h18,
      treeAnswer, if_neg hfit, kind_code_struct, hn, SchemaTy.rows]

/-! ## What a wire spells and denotes -/

/-- The schema the parser reads off the wire, whatever follows it. -/
def Denotes (w : Bytes) (sc : SchemaTy) : Prop := sc.Ok ∧ sc.encode <+: w

/-- A wire denotes at most one schema. -/
theorem denotes_unique {sc' : SchemaTy} (h : Denotes w sc) (h' : Denotes w sc') :
    sc = sc' := by
  obtain ⟨r, hr⟩ := h.2
  obtain ⟨r', hr'⟩ := h'.2
  exact (SchemaTy.encode_inj h.1 h'.1 (hr.trans hr'.symm)).1

end Rant.Serialize

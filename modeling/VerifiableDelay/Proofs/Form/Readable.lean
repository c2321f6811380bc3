import VerifiableDelay.Proofs.Form.Codec
/-!
# Which bytes are read as forms

A form is read from its encoding if its compressed representation stands for
it, and from no other bytes (`Form.decode_eq_ok_iff`). So which bytes are
read is said without reading them: those that some reduced form of the
discriminant is written as, where the form can be restored
(`Form.exists_decode_iff`). All others are refused, **each for what is wrong
with the bytes** and for nothing else (`Form.blamesBytes_decode`).
-/

namespace VerifiableDelay

variable {α β : Type} {x : Except FormError α} {f : α → Except FormError β}

/-- **It fails, if it does, for what is wrong with some bytes.** -/
def BlamesBytes (x : Except FormError α) : Prop :=
  ∀ e, x = .error e → ∃ fault, e = .encoding fault

namespace BlamesBytes

theorem ok (a : α) : BlamesBytes (.ok a) := by
  intro e h
  cases h

theorem error (fault : EncodingFault) : BlamesBytes (.error (.encoding fault) : Except FormError α) := by
  intro e h
  cases h
  exact ⟨fault, rfl⟩

/-- And so does what follows it. -/
theorem bind (hx : BlamesBytes x) (hf : ∀ a, x = .ok a → BlamesBytes (f a)) :
    BlamesBytes (x >>= f) := by
  cases x with
  | error e =>
    intro e' h
    cases h
    exact hx e rfl
  | ok a => exact hf a rfl

theorem ite {p : Prop} [Decidable p] {y : Except FormError α} (hx : p → BlamesBytes x)
    (hy : ¬ p → BlamesBytes y) : BlamesBytes (if p then x else y) := by
  split
  · rename_i h
    exact hx h
  · rename_i h
    exact hy h

end BlamesBytes

theorem Compressed.blamesBytes_expand (d : Int) (c : Compressed) : BlamesBytes (c.expand d) := by
  unfold expand
  refine .ite (fun _ => .error _) fun _ => .ite (fun _ => .ok _) fun _ => ?_
  refine .ite (fun _ => .error _) fun _ => ?_
  exact .ite (fun _ => .error _) fun _ => .ok _

namespace Codec

variable {bits : Nat} {bytes : List UInt8}

theorem blamesBytes_readFields (widths : List Nat) (bytes : List UInt8) :
    BlamesBytes (readFields widths bytes) := by
  induction widths generalizing bytes with
  | nil => exact .ok _
  | cons width widths ih =>
    unfold readFields
    exact .ite (fun _ => .error _) fun _ => (ih _).bind fun _ _ => .ok _

theorem blamesBytes_readCompressed (bits : Nat) (flags factorSize : UInt8) (bytes : List UInt8) :
    BlamesBytes (readCompressed bits flags factorSize bytes) := by
  unfold readCompressed
  refine .ite (fun _ => .error _) fun _ => (blamesBytes_readFields _ _).bind fun fields _ => ?_
  split
  · exact .ok _
  · exact .error _

theorem blamesBytes_readLeading (d : Int) (bits : Nat) (bytes : List UInt8) :
    BlamesBytes (readLeading d bits bytes) := by
  unfold readLeading
  split
  · refine .ite (fun _ => .ok _) fun _ => .ite (fun _ => .ok _) fun _ => ?_
    exact (blamesBytes_readCompressed _ _ _ _).bind fun c _ => c.blamesBytes_expand d
  · exact .error _

theorem blamesBytes_decodeLeading (d : Int) (bits : Nat) (bytes : List UInt8) :
    BlamesBytes (decodeLeading d bits bytes) := by
  unfold decodeLeading
  refine .ite (fun _ => .error _) fun _ => .ite (fun _ => .error _) fun _ => ?_
  refine (blamesBytes_readLeading d bits bytes).bind fun ab _ => ?_
  simp only
  split
  · exact .error _
  · exact .ite (fun _ => .ok _) fun _ => .error _

end Codec

namespace Form

variable {d : Discriminant} {f : Form} {bytes : List UInt8}

/-- **Bytes are refused for what is wrong with them.** -/
theorem blamesBytes_decode (d : Discriminant) (bytes : List UInt8) :
    BlamesBytes (decode d bytes) := by
  unfold decode
  refine (Codec.blamesBytes_decodeLeading _ _ _).bind fun ab _ => ?_
  refine .ite (fun _ => .error _) fun _ => ?_
  exact .ite (fun _ => .ok _) fun _ => .error _

/-- What is read can be restored: of any other form the bytes expand to a
middle coefficient of zero, which no form of the discriminant has. -/
theorem restorable_of_decode (h : decode d bytes = .ok f) : f.Restorable := by
  obtain ⟨hr, hd, hleading⟩ := decodeLeading_of_decode h
  obtain ⟨-, -, hread, hwrite⟩ := Codec.decodeLeading_eq_ok_iff.1 hleading
  have hf := definite_of_isReduced d.value_neg hr hd
  by_contra hlost
  obtain ⟨c, hc, hexpand⟩ := Compressed.exists_of?_expand_of_not_restorable hf hr hlost
  obtain ⟨-, -, hone | hcompressed⟩ := Codec.readLeading_of_encodeLeading d.value hf.leading_pos
    (Compressed.eq_or_natAbs_lt hr) hwrite
  · refine hlost fun ha hsquare => ha ?_
    rw [hone.1, Int.gcd_one_right] at hsquare
    exact hsquare.symm
  · rw [hcompressed c hc, hexpand] at hread
    rw [Except.ok.injEq, Prod.mk.injEq] at hread
    have hmod := d.value_mod
    rw [← hd, discriminant, ← hread.2] at hmod
    omega

/-- **A form is read from its encoding if it can be restored**, and from no
other bytes. -/
theorem decode_eq_ok_iff :
    decode d bytes = .ok f ↔ f.isReduced = true ∧ f.discriminant = d.value ∧ f.Restorable ∧
      f.encode d = .ok bytes := by
  constructor
  · intro h
    obtain ⟨hr, hd, hwrite⟩ := encode_of_decode h
    exact ⟨hr, hd, restorable_of_decode h, hwrite⟩
  · rintro ⟨hr, hd, hres, hwrite⟩
    have hf := definite_of_isReduced d.value_neg hr hd
    refine decode_of_encode hf hr (Compressed.exists_of?_expand_of_restorable hf hr ?_ hres) hwrite
    have hmod := d.value_mod
    omega

/-- **The bytes are the encoding of a reduced form** of the discriminant, one
that can be restored. -/
def Encoded (d : Discriminant) (bytes : List UInt8) : Prop :=
  ∃ f : Form, f.isReduced = true ∧ f.discriminant = d.value ∧ f.Restorable ∧
    f.encode d = .ok bytes

/-- **Those are the bytes that are read.** -/
theorem exists_decode_iff : (∃ f, decode d bytes = .ok f) ↔ Encoded d bytes :=
  exists_congr fun _ => decode_eq_ok_iff

/-- Where the discriminant is squarefree they are the encodings of its reduced
forms. -/
theorem encoded_iff_of_squarefree (hd : Squarefree d.value) :
    Encoded d bytes ↔
      ∃ f : Form, f.isReduced = true ∧ f.discriminant = d.value ∧ f.encode d = .ok bytes := by
  refine exists_congr fun f => and_congr_right fun _ => and_congr_right fun hf => ?_
  exact and_iff_right (.of_squarefree (hf.symm ▸ hd))

end Form

end VerifiableDelay

import JsxBoundary.Concrete.Read
import JsxBoundary.Proofs.DeferralText

namespace JsxBoundary.Concrete

section

variable {α β : Type}

theorem bind_eq_ok {x : Except Fault α} {f : α → Except Fault β} {b : β} (h : x >>= f = .ok b) :
    ∃ a, x = .ok a ∧ f a = .ok b := by
  cases x with
  | error fault => cases h
  | ok a => exact ⟨a, rfl, h⟩

theorem map_eq_ok {x : Except Fault α} {f : α → β} {b : β} (h : x.map f = .ok b) :
    ∃ a, x = .ok a ∧ b = f a := by
  cases x with
  | error fault => cases h
  | ok a =>
      cases h
      exact ⟨a, rfl, rfl⟩

theorem mapM_eq_ok {f : α → Except Fault β} {as : List α} {bs : List β} (h : as.mapM f = .ok bs) :
    Pointwise (fun a b => f a = .ok b) as bs := by
  induction as generalizing bs with
  | nil =>
      cases h
      exact .nil
  | cons a as ih =>
      rw [List.mapM_cons] at h
      obtain ⟨b, head, h⟩ := bind_eq_ok h
      obtain ⟨bs, tail, h⟩ := bind_eq_ok h
      cases h
      exact .cons head (ih tail)

theorem mapM_cons_ok {f : α → Except Fault β} {a : α} {b : β} {as : List α} {bs : List β}
    (head : f a = .ok b) (tail : as.mapM f = .ok bs) : (a :: as).mapM f = .ok (b :: bs) := by
  rw [List.mapM_cons, head, tail]
  rfl

theorem mapM_ok {f : α → Except Fault β} {as : List α} (h : ∀ a ∈ as, ∃ b, f a = .ok b) :
    ∃ bs, as.mapM f = .ok bs := by
  induction as with
  | nil => exact ⟨[], rfl⟩
  | cons a as ih =>
      obtain ⟨b, head⟩ := h a (.head _)
      obtain ⟨bs, tail⟩ := ih fun a member => h a (.tail _ member)
      exact ⟨b :: bs, mapM_cons_ok head tail⟩

theorem mapM_eq_error {f : α → Except Fault β} {as : List α} {fault : Fault} (h : as.mapM f = .error fault) :
    ∃ a ∈ as, f a = .error fault := by
  induction as with
  | nil => cases h
  | cons a as ih =>
      rw [List.mapM_cons] at h
      cases head : f a with
      | error other =>
          rw [head] at h
          cases h
          exact ⟨a, .head _, head⟩
      | ok b =>
          cases tail : as.mapM f with
          | error other =>
              rw [head, tail] at h
              cases h
              obtain ⟨c, member, failed⟩ := ih tail
              exact ⟨c, .tail _ member, failed⟩
          | ok bs =>
              rw [head, tail] at h
              cases h

theorem foldlM_keeps {P : β → Prop} {f : β → α → Except Fault β}
    (step : ∀ a b b', f b a = .ok b' → P b → P b') {as : List α} {b b' : β}
    (h : as.foldlM f b = .ok b') (start : P b) : P b' := by
  induction as generalizing b with
  | nil =>
      cases h
      exact start
  | cons a as ih =>
      rw [List.foldlM_cons] at h
      obtain ⟨b'', first, rest⟩ := bind_eq_ok h
      apply ih rest
      exact step a b b'' first start

theorem foldlM_ok {f : β → α → Except Fault β} {as : List α}
    (step : ∀ a ∈ as, ∀ b, ∃ b', f b a = .ok b') (b : β) : ∃ b', as.foldlM f b = .ok b' := by
  induction as generalizing b with
  | nil => exact ⟨b, rfl⟩
  | cons a as ih =>
      obtain ⟨b', first⟩ := step a (.head _) b
      obtain ⟨b'', rest⟩ := ih (fun a member => step a (.tail _ member)) b'
      exact ⟨b'', by rw [List.foldlM_cons, first]; exact rest⟩

end

/-- The text is the one that the bytes from `start` to `stop` encode. -/
def Spells (source : ByteArray) (start stop : Nat) (t : String) : Prop :=
  t.toUTF8 = source.extract start stop

variable {source : ByteArray} {a b c : Nat} {t u : String}

theorem slice_eq_ok_iff : slice source a b = .ok t ↔ Spells source a b t := by
  unfold slice Spells String.fromUTF8?
  constructor
  · intro h
    split at h
    · rename_i text found
      cases h
      split at found
      · cases found
        rfl
      · cases found
    · cases h
  · intro spelled
    have valid : (source.extract a b).IsValidUTF8 := spelled ▸ t.isValidUTF8
    have same : String.fromUTF8 (source.extract a b) valid = t :=
      String.toByteArray_inj.1 spelled.symm
    rw [dif_pos valid]
    exact congrArg Except.ok same

namespace Spells

theorem append (left : Spells source a b t) (right : Spells source b c u) (ab : a ≤ b) (bc : b ≤ c) :
    Spells source a c (t ++ u) := by
  unfold Spells at left right ⊢
  rw [String.toUTF8_eq_toByteArray] at left right ⊢
  rw [String.toByteArray_append, left, right, ByteArray.extract_append_extract, Nat.min_eq_left ab,
    Nat.max_eq_right bc]

theorem empty (h : b ≤ a) : Spells source a b "" := by
  unfold Spells
  rw [ByteArray.extract_eq_empty_iff.2 (Nat.le_trans (Nat.min_le_left _ _) h)]
  rfl

theorem inj (left : Spells source a b t) (right : Spells source a b u) : t = u :=
  String.toByteArray_inj.1 (left.trans right.symm)

theorem of_append {text : String} (front back : String) (whole : text = front ++ t ++ back)
    (first : a = front.utf8ByteSize) (last : b = a + t.utf8ByteSize) : Spells text.toUTF8 a b t := by
  subst whole first last
  unfold Spells
  rw [String.toUTF8_eq_toByteArray, String.toUTF8_eq_toByteArray, String.toByteArray_append,
    String.toByteArray_append, ← String.size_toByteArray, ← String.size_toByteArray, ByteArray.append_assoc]
  calc t.toByteArray
      = (t.toByteArray ++ back.toByteArray).extract 0 t.toByteArray.size := by
        rw [ByteArray.extract_append_size_left, ByteArray.extract_zero_size]
    _ = _ := (ByteArray.extract_append_size_add' rfl).symm

end Spells

theorem spells_of_isValid {text : String} (first : (⟨a⟩ : String.Pos.Raw).IsValid text)
    (last : (⟨b⟩ : String.Pos.Raw).IsValid text) (ab : a ≤ b) : ∃ t, Spells text.toUTF8 a b t := by
  have bound : b ≤ text.toByteArray.size := last.le_utf8ByteSize
  obtain ⟨front, prefixed⟩ : ∃ front : String, front.toByteArray = text.toByteArray.extract 0 b :=
    ⟨⟨_, last.isValidUTF8_extract_zero⟩, rfl⟩
  -- A position of the text up to `b` is one of the prefix that ends there.
  have size : front.utf8ByteSize = b := by
    rw [← String.size_toByteArray, prefixed, ByteArray.size_extract]
    omega
  have cut : (⟨a⟩ : String.Pos.Raw).IsValid front := by
    rw [String.Pos.Raw.isValid_iff_isValidUTF8_extract_zero]
    refine ⟨?_, ?_⟩
    · rw [String.Pos.Raw.le_iff, String.byteIdx_rawEndPos, size]
      exact ab
    · rw [prefixed, ByteArray.extract_extract]
      have within := first.isValidUTF8_extract_zero
      simpa [Nat.min_eq_left ab] using within
  have valid := cut.isValidUTF8_extract_utf8ByteSize
  rw [prefixed, size, ByteArray.extract_extract] at valid
  refine ⟨⟨_, valid⟩, ?_⟩
  unfold Spells
  rw [String.toUTF8_eq_toByteArray, String.toUTF8_eq_toByteArray]
  simp

theorem gap_eq_ok {ps : List (Piece Node)} (h : gap source a b = .ok ps) :
    ∃ t, Spells source a b t ∧ (ps = [.text t] ∨ ps = [] ∧ t = "") := by
  unfold gap at h
  split at h
  · cases found : slice source a b with
    | error fault => rw [found] at h; cases h
    | ok t =>
        rw [found] at h
        cases h
        exact ⟨t, slice_eq_ok_iff.1 found, .inl rfl⟩
  · rename_i beyond
    cases h
    exact ⟨"", .empty (by omega), .inr ⟨rfl, rfl⟩⟩

theorem gap_ok (h : ∃ t, Spells source a b t) : ∃ ps, gap source a b = .ok ps := by
  obtain ⟨t, spelled⟩ := h
  unfold gap
  split
  · exact ⟨_, by rw [slice_eq_ok_iff.2 spelled]; rfl⟩
  · exact ⟨_, rfl⟩

inductive Lined (stop : Nat) : Nat → List Slot → Prop
  | nil {cursor : Nat} (le : cursor ≤ stop) : Lined stop cursor []
  | cons {cursor : Nat} {slot : Slot} {slots : List Slot} (before : cursor ≤ slot.node.start)
      (nonempty : slot.node.start < slot.node.stop) (tail : Lined stop slot.node.stop slots) :
      Lined stop cursor (slot :: slots)

theorem Lined.le {cursor stop : Nat} {slots : List Slot} (h : Lined stop cursor slots) :
    cursor ≤ stop := by
  induction h with
  | nil le => exact le
  | cons before nonempty _ ih => omega

theorem Lined.after {cursor stop : Nat} {slots : List Slot} (h : Lined stop cursor slots) :
    ∀ slot ∈ slots, cursor ≤ slot.node.start := by
  induction h with
  | nil =>
      intro slot member
      cases member
  | cons before nonempty _ ih =>
      intro slot member
      rcases List.mem_cons.1 member with rfl | member
      · exact before
      · have later := ih slot member
        omega

theorem pieces_cons_eq_ok {cursor stop : Nat} {slot : Slot} {slots : List Slot}
    {ps : List (Piece Node)} (h : pieces source cursor stop (slot :: slots) = .ok ps) :
    ∃ before after, gap source cursor slot.node.start = .ok before ∧
      pieces source slot.node.stop stop slots = .ok after ∧ ps = before ++ .child slot.index :: after := by
  simp only [pieces, bind, Except.bind] at h
  split at h
  · cases h
  · rename_i before first
    split at h
    · cases h
    · rename_i after rest
      cases h
      exact ⟨before, after, first, rest, rfl⟩

section

variable {cursor stop : Nat} {slots : List Slot} {ps : List (Piece Node)}

theorem not_loose_of_gap (h : gap source a b = .ok ps) (m : Node) : .loose m ∉ ps := by
  obtain ⟨t, _, rfl | ⟨rfl, _⟩⟩ := gap_eq_ok h <;> simp

theorem not_loose_of_pieces (h : pieces source cursor stop slots = .ok ps) (m : Node) :
    .loose m ∉ ps := by
  induction slots generalizing cursor ps with
  | nil => exact not_loose_of_gap h m
  | cons slot slots ih =>
      obtain ⟨before, after, first, rest, rfl⟩ := pieces_cons_eq_ok h
      intro member
      rcases List.mem_append.1 member with member | member
      · exact not_loose_of_gap first m member
      · cases member with
        | tail _ member => exact ih rest member

theorem child_mem_pieces (h : pieces source cursor stop slots = .ok ps) {slot : Slot}
    (member : slot ∈ slots) : .child slot.index ∈ ps := by
  induction slots generalizing cursor ps with
  | nil => cases member
  | cons own slots ih =>
      obtain ⟨before, after, _, rest, rfl⟩ := pieces_cons_eq_ok h
      rcases List.mem_cons.1 member with rfl | member
      · simp
      · simp [ih rest member]

theorem gap_prints (h : gap source a b = .ok ps) (all : List Node) :
    ∃ t, Spells source a b t ∧ Prints (ps.flatMap (Part.ofPiece all)) t := by
  obtain ⟨t, spelled, rfl | ⟨rfl, rfl⟩⟩ := gap_eq_ok h
  · exact ⟨t, spelled, .single rfl⟩
  · exact ⟨"", spelled, .nil⟩

theorem pieces_prints (all : List Node) (h : pieces source cursor stop slots = .ok ps)
    (lined : Lined stop cursor slots)
    (shown : ∀ slot ∈ slots, ∃ c u, all[slot.index]? = some c ∧ c.print = .ok u ∧
      Spells source slot.node.start slot.node.stop u) :
    ∃ t, Spells source cursor stop t ∧ Prints (ps.flatMap (Part.ofPiece all)) t := by
  induction lined generalizing ps with
  | nil => exact gap_prints h all
  | @cons cursor slot slots before nonempty tail ih =>
      obtain ⟨front, back, first, rest, rfl⟩ := pieces_cons_eq_ok h
      obtain ⟨x, spelled, prints⟩ := gap_prints first all
      obtain ⟨c, u, found, printed, own⟩ := shown slot (.head _)
      obtain ⟨y, spelled', prints'⟩ := ih rest fun slot member => shown slot (.tail _ member)
      have whole := spelled.append (own.append spelled' (by omega) tail.le) before
        (Nat.le_trans (by omega) tail.le)
      refine ⟨_, whole, ?_⟩
      rw [List.flatMap_append, List.flatMap_cons, Part.ofPiece, found]
      exact prints.append (.node printed prints')

theorem pieces_ok {text : String} (lined : Lined stop cursor slots)
    (first : (⟨cursor⟩ : String.Pos.Raw).IsValid text) (last : (⟨stop⟩ : String.Pos.Raw).IsValid text)
    (valid : ∀ slot ∈ slots, (⟨slot.node.start⟩ : String.Pos.Raw).IsValid text ∧
      (⟨slot.node.stop⟩ : String.Pos.Raw).IsValid text) :
    ∃ ps, pieces text.toUTF8 cursor stop slots = .ok ps := by
  induction lined with
  | nil le => exact gap_ok (spells_of_isValid first last le)
  | @cons cursor slot slots before nonempty tail ih =>
      obtain ⟨start, stop'⟩ := valid slot (.head _)
      obtain ⟨front, found⟩ := gap_ok (spells_of_isValid first start before)
      obtain ⟨back, rest⟩ := ih stop' fun slot member => valid slot (.tail _ member)
      exact ⟨_, by rw [pieces, found, rest]; rfl⟩

theorem pieces_shows {nodes : List Node} {i : Nat} (h : pieces source cursor stop slots = .ok ps)
    (lined : Lined stop cursor slots) (length : nodes.length = slots.length)
    (indices : ∀ j slot, slots[j]? = some slot → slot.index = i + j)
    (blank : ∀ a b t, cursor ≤ a → b ≤ stop →
      (∀ slot ∈ slots, slot.node.stop ≤ a ∨ b ≤ slot.node.start) → Spells source a b t →
      Text.isBlank t = true) : Node.Shows i nodes ps := by
  have gaps : ∀ {a b : Nat} {more ps : List (Piece Node)} {i : Nat} {nodes : List Node},
      gap source a b = .ok more → (∀ t, Spells source a b t → Text.isBlank t = true) →
      Node.Shows i nodes ps → Node.Shows i nodes (more ++ ps) := by
    intro a b more ps i nodes found blank shows
    obtain ⟨t, spelled, rfl | ⟨rfl, _⟩⟩ := gap_eq_ok found
    · exact .text (blank t spelled) shows
    · exact shows
  induction lined generalizing ps i nodes with
  | @nil cursor le =>
      cases List.eq_nil_of_length_eq_zero length
      have shows := gaps h (fun t => blank cursor stop t (Nat.le_refl _) (Nat.le_refl _)
        fun slot member => by cases member) (.nil (i := i))
      rwa [List.append_nil] at shows
  | @cons cursor slot slots before nonempty tail ih =>
      obtain ⟨front, back, first, rest, rfl⟩ := pieces_cons_eq_ok h
      obtain ⟨c, nodes, rfl⟩ := List.exists_cons_of_length_eq_add_one length
      have own : slot.index = i := indices 0 slot rfl
      have inner : Node.Shows (i + 1) nodes back := by
        apply ih rest (by simpa using length)
        · intro j slot found
          have next := indices (j + 1) slot found
          omega
        · intro a b t le le' apart spelled
          refine blank a b t (by omega) le' (fun other member => ?_) spelled
          rcases List.mem_cons.1 member with rfl | member
          · exact .inl le
          · exact apart other member
      rw [own]
      refine gaps first (fun t spelled => ?_) (.child inner)
      refine blank _ _ t (Nat.le_refl _) (Nat.le_trans (Nat.le_of_lt nonempty) tail.le)
        (fun other member => ?_) spelled
      rcases List.mem_cons.1 member with rfl | member
      · exact .inr (Nat.le_refl _)
      · have later := tail.after other member
        exact .inr (by omega)

end

end JsxBoundary.Concrete

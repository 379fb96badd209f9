import ProofSheet.Compressed.Proof
import ProofSheet.Proofs.Changes
import ProofSheet.Proofs.Codes

set_option autoImplicit false

/-! # The numbering of labels

The labels of a proof are numbered as they come, and a number that is given stays. So in the final
numbering every code names the label that it stands for (`numberLabels_names`), and a proof that is
compressed has valid codes (`valid_compress`). The numbering itself lists every label once, where it
first appears (`foldl_addLabel_eq`), so a compressed proof tells the proof that it was made from
(`isFor_compress`).
-/

namespace ProofSheet

/-- The code stands for the label in a numbering; an unknown step has the label `?`. -/
def Code.Names (numbering : List Text) (label : Text) : Code → Prop
  | .index i => label ≠ ['?'] ∧ numbering[i]? = some label
  | .unknown => label = ['?']
  | .save => False

theorem Code.Names.eq_unknown_iff {numbering : List Text} {label : Text} {c : Code}
    (hname : c.Names numbering label) : c = .unknown ↔ label = ['?'] := by
  cases c with
  | index i => exact iff_of_false Code.noConfusion hname.1
  | unknown => exact iff_of_true rfl hname
  | save => exact hname.elim

section Numbering

variable {known : List Text} {label : Text}

theorem mem_addLabel (known : List Text) (label : Text) : label ∈ addLabel known label := by
  unfold addLabel
  split
  · assumption
  · exact List.mem_append_right _ List.mem_cons_self

/-- Numbers that are given stay. -/
theorem prefix_addLabel (known : List Text) (label : Text) : known <+: addLabel known label := by
  unfold addLabel
  split
  · exact List.prefix_refl known
  · exact List.prefix_append known [label]

theorem length_addLabel_le (known : List Text) (label : Text) :
    (addLabel known label).length ≤ known.length + 1 := by
  unfold addLabel
  split
  · exact Nat.le_succ _
  · rw [List.length_append, List.length_singleton]

theorem nodup_addLabel (hknown : known.Nodup) : (addLabel known label).Nodup := by
  unfold addLabel
  split
  · exact hknown
  · rename_i hlabel
    refine List.nodup_append.mpr ⟨hknown, List.pairwise_singleton _ label, ?_⟩
    rintro _ hother _ hlast rfl
    exact hlabel (List.mem_singleton.mp hlast ▸ hother)

theorem nodup_foldl_addLabel (hknown : known.Nodup) (labels : List Text) :
    (labels.foldl addLabel known).Nodup := by
  induction labels generalizing known with
  | nil => exact hknown
  | cons label rest ih => exact ih (nodup_addLabel hknown)

/-- A numbering goes on with the labels that are new to it, each where it first appears. -/
theorem foldl_addLabel_eq (known labels : List Text) :
    labels.foldl addLabel known = known ++ (labels.filter (· ∉ known)).eraseDups := by
  induction labels generalizing known with
  | nil => exact (List.append_nil known).symm
  | cons label rest ih =>
      rw [List.foldl_cons, ih]
      by_cases hlabel : label ∈ known
      · rw [addLabel, if_pos hlabel, List.filter_cons_of_neg (by simpa using hlabel)]
      · rw [addLabel, if_neg hlabel, List.filter_cons_of_pos (by simpa using hlabel),
          List.eraseDups_cons, List.append_assoc, List.singleton_append, List.filter_filter]
        -- the labels that are new to `known ++ [label]` are those new to `known`, without `label`
        congr 4
        funext other
        exact Bool.eq_iff_iff.mpr (by simp [and_comm])

theorem foldl_addLabel_nil (labels : List Text) : labels.foldl addLabel [] = labels.eraseDups := by
  rw [foldl_addLabel_eq, List.nil_append, List.filter_eq_self.mpr (by simp)]

theorem numberLabels_unknown (known rest : List Text) :
    numberLabels known (['?'] :: rest) =
      ((numberLabels known rest).1, .unknown :: (numberLabels known rest).2) := by
  rw [numberLabels, if_pos rfl]

theorem numberLabels_label (hlabel : label ≠ ['?']) (rest : List Text) :
    numberLabels known (label :: rest) =
      ((numberLabels (addLabel known label) rest).1,
        .index ((addLabel known label).idxOf label) ::
          (numberLabels (addLabel known label) rest).2) := by
  rw [numberLabels, if_neg hlabel]

/-- Unknown steps take no number; every other label of the proof is added in turn. -/
theorem numberLabels_fst (known proof : List Text) :
    (numberLabels known proof).1 = (proof.filter (· ≠ ['?'])).foldl addLabel known := by
  induction proof generalizing known with
  | nil => rfl
  | cons label rest ih =>
      by_cases hunknown : label = ['?']
      · rw [hunknown, numberLabels_unknown, List.filter_cons_of_neg (by simp)]
        exact ih known
      · rw [numberLabels_label hunknown, List.filter_cons_of_pos (by simpa using hunknown),
          List.foldl_cons]
        exact ih (addLabel known label)

/-- In the final numbering, which goes on from the first one, the codes stand for the labels. -/
theorem numberLabels_names (known proof : List Text) :
    known <+: (numberLabels known proof).1 ∧
      List.Forall₂ (Code.Names (numberLabels known proof).1) proof
        (numberLabels known proof).2 := by
  induction proof generalizing known with
  | nil => exact ⟨List.prefix_refl known, .nil⟩
  | cons label rest ih =>
      by_cases hunknown : label = ['?']
      · obtain ⟨hmore, hnames⟩ := ih known
        rw [hunknown, numberLabels_unknown]
        exact ⟨hmore, .cons rfl hnames⟩
      · obtain ⟨hmore, hnames⟩ := ih (addLabel known label)
        rw [numberLabels_label hunknown]
        refine ⟨(prefix_addLabel known label).trans hmore, .cons ⟨hunknown, ?_⟩ hnames⟩
        -- the number was given when the label came, and it stays
        obtain ⟨later, hlater⟩ := hmore
        have hindex := List.idxOf_lt_length_of_mem (mem_addLabel known label)
        rw [← hlater, List.getElem?_append_left hindex]
        exact List.getElem?_idxOf (mem_addLabel known label)

theorem length_numberLabels_le (known proof : List Text) :
    (numberLabels known proof).1.length ≤ known.length + proof.length := by
  induction proof generalizing known with
  | nil => exact Nat.le_refl _
  | cons label rest ih =>
      by_cases hunknown : label = ['?']
      · rw [hunknown, numberLabels_unknown]
        exact Nat.le_trans (ih known) (Nat.add_le_add_left (Nat.le_succ _) _)
      · rw [numberLabels_label hunknown]
        have hrest := ih (addLabel known label)
        have hadd := length_addLabel_le known label
        rw [List.length_cons]
        dsimp only
        omega

theorem length_foldl_addLabel_le (known mandatory : List Text) :
    (mandatory.foldl addLabel known).length ≤ known.length + mandatory.length := by
  induction mandatory generalizing known with
  | nil => exact Nat.le_refl _
  | cons label rest ih =>
      have hrest := ih (addLabel known label)
      have hadd := length_addLabel_le known label
      rw [List.foldl_cons, List.length_cons]
      omega

end Numbering

/-- The numbering of a compressed proof: the mandatory labels, then the listed ones. -/
theorem numberLabels_compress (mandatory proof : List Text) :
    (numberLabels (mandatory.foldl addLabel []) proof).1 =
      mandatory.eraseDups ++ (compress mandatory proof).labels := by
  obtain ⟨listed, hlisted⟩ := (numberLabels_names (mandatory.foldl addLabel []) proof).1
  have hlabels : (compress mandatory proof).labels = listed := by
    show (numberLabels _ proof).1.drop _ = listed
    rw [← hlisted, List.drop_left]
  rw [hlabels, ← hlisted, foldl_addLabel_nil]

/-- The listed labels are those of the proof that are not mandatory, each where it first appears. -/
theorem labels_compress (mandatory proof : List Text) :
    (compress mandatory proof).labels =
      (proof.filter fun label => label ≠ ['?'] ∧ label ∉ mandatory).eraseDups := by
  have hnumbering := numberLabels_compress mandatory proof
  rw [numberLabels_fst, foldl_addLabel_eq, foldl_addLabel_nil] at hnumbering
  rw [← List.append_cancel_left hnumbering, List.filter_filter]
  congr 2
  funext label
  exact Bool.eq_iff_iff.mpr (by simp [and_comm])

/-- Every code stands for the label of the proof at its place. -/
theorem names_compress (mandatory proof : List Text) :
    List.Forall₂ (Code.Names (mandatory.eraseDups ++ (compress mandatory proof).labels)) proof
      (compress mandatory proof).codes := by
  rw [← numberLabels_compress]
  exact (numberLabels_names (mandatory.foldl addLabel []) proof).2

/-- No label has two numbers. -/
theorem nodup_compress (mandatory proof : List Text) :
    (mandatory.eraseDups ++ (compress mandatory proof).labels).Nodup := by
  rw [← numberLabels_compress, numberLabels_fst]
  exact nodup_foldl_addLabel (nodup_foldl_addLabel List.nodup_nil mandatory) _

theorem length_compress_le (mandatory proof : List Text) :
    (mandatory.eraseDups ++ (compress mandatory proof).labels).length ≤
      mandatory.length + proof.length := by
  have himplicit := length_foldl_addLabel_le [] mandatory
  rw [List.length_nil, Nat.zero_add] at himplicit
  rw [← numberLabels_compress]
  exact (length_numberLabels_le _ proof).trans (Nat.add_le_add_right himplicit _)

/-- The codes of a proof that is compressed are valid, as long as its labels can be numbered. -/
theorem valid_compress {mandatory proof : List Text}
    (range : mandatory.length + proof.length ≤ Code.indexLimit) :
    Code.Valid (compress mandatory proof).codes := by
  have hnames := names_compress mandatory proof
  constructor
  · intro i hi
    obtain ⟨label, -, -, hget⟩ := exists_mem_of_forall₂ hnames hi
    obtain ⟨hlt, -⟩ := List.getElem?_eq_some_iff.mp hget
    exact hlt.trans_le ((length_compress_le mandatory proof).trans range)
  -- a proof that is compressed has no saves at all
  · intro before after hsplit
    have hmem : .save ∈ (compress mandatory proof).codes := by
      rw [hsplit]
      exact List.mem_append_cons_self
    obtain ⟨label, -, hsave⟩ := exists_mem_of_forall₂ hnames hmem
    cases hsave

/-- The compressed proof tells a proof in postfix order apart from its unknown steps, where the
mandatory labels are numbered in front of the listed ones. -/
structure CompressedProof.IsFor (p : CompressedProof) (mandatory proof : List Text) : Prop where
  length_codes : p.codes.length = proof.length
  no_saves : .save ∉ p.codes
  unknown_iff (k : Nat) : p.codes[k]? = some .unknown ↔ proof[k]? = some ['?']
  named (k : Nat) (label : Text) : proof[k]? = some label → label ≠ ['?'] →
    ∃ i, p.codes[k]? = some (.index i) ∧ (mandatory.eraseDups ++ p.labels)[i]? = some label
  labels_nodup : p.labels.Nodup
  labels_disjoint : List.Disjoint p.labels mandatory.eraseDups
  labels_known : ['?'] ∉ p.labels
  labels_eq : p.labels =
    (proof.filter fun label => label ≠ ['?'] ∧ label ∉ mandatory).eraseDups
  decode_codeText : Code.decode p.codeText = .ok p.codes

/-- A compressed proof names the proof that it was made from, and its text is read back. -/
theorem isFor_compress (mandatory proof : List Text)
    (range : mandatory.length + proof.length < Code.indexLimit) :
    (compress mandatory proof).IsFor mandatory proof := by
  have hnames := names_compress mandatory proof
  obtain ⟨-, hlabels, hapart⟩ := List.nodup_append.mp (nodup_compress mandatory proof)
  -- at every position there is a code for the label there, and it stands for that label
  obtain ⟨hlength, hat⟩ := List.forall₂_iff_get.mp hnames
  have code_at (k : Nat) (label : Text) (hlabel : proof[k]? = some label) :
      ∃ code, (compress mandatory proof).codes[k]? = some code ∧
        code.Names (mandatory.eraseDups ++ (compress mandatory proof).labels) label := by
    obtain ⟨hk, rfl⟩ := List.getElem?_eq_some_iff.mp hlabel
    exact ⟨_, List.getElem?_eq_getElem (hlength ▸ hk), hat k hk (hlength ▸ hk)⟩
  exact
    { length_codes := hlength.symm
      no_saves := fun hsave => by
        obtain ⟨_, -, hnone⟩ := exists_mem_of_forall₂ hnames hsave
        exact hnone
      unknown_iff := fun k => by
        cases hlabel : proof[k]? with
        | none =>
            have hend := hlength ▸ List.getElem?_eq_none_iff.mp hlabel
            rw [List.getElem?_eq_none hend]
            simp
        | some label =>
            obtain ⟨code, hcode, hname⟩ := code_at k label hlabel
            rw [hcode, Option.some_inj, Option.some_inj]
            exact hname.eq_unknown_iff
      named := fun k label hlabel hknown => by
        obtain ⟨code, hcode, hname⟩ := code_at k label hlabel
        cases code with
        | index i => exact ⟨i, hcode, hname.2⟩
        | unknown => exact absurd hname hknown
        | save => exact hname.elim
      labels_nodup := hlabels
      labels_disjoint := fun label hlisted himplicit => hapart label himplicit label hlisted rfl
      labels_known := by
        rw [labels_compress, List.mem_eraseDups]
        simp
      labels_eq := labels_compress mandatory proof
      decode_codeText :=
        Code.decode_ok.mpr ⟨valid_compress (Nat.le_of_lt range), (Code.filter_textOf _).symm⟩ }

/-- A mandatory label that is given twice is numbered once, a listed label keeps its number, and an
unknown step takes none. -/
theorem isFor_compress_repeated :
    [['a'], ['b'], ['a']].length + [['c'], ['?'], ['b'], ['c'], ['d']].length < Code.indexLimit ∧
      compress [['a'], ['b'], ['a']] [['c'], ['?'], ['b'], ['c'], ['d']] =
        ⟨[['c'], ['d']], [.index 2, .unknown, .index 1, .index 2, .index 3]⟩ ∧
      (compress [['a'], ['b'], ['a']] [['c'], ['?'], ['b'], ['c'], ['d']]).IsFor
        [['a'], ['b'], ['a']] [['c'], ['?'], ['b'], ['c'], ['d']] :=
  ⟨by decide, by decide, isFor_compress _ _ (by decide)⟩

end ProofSheet

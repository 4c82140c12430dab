import FeatureDepot.Version
import Mathlib.Data.List.Basic

/-! Versions and their texts. A deployed snapshot is cut from its text in one way, and its text is
read back as the same version, whatever its base looks like and however many zeros its build number
started with. -/
namespace FeatureDepot.Version

variable {cs base stamp : List Char} {build : UInt32} {text : String} {c : Char}

theorem length_of_isTimestamp (h : isTimestamp stamp) : stamp.length = 15 := by
  unfold isTimestamp at h
  split at h
  next time hdrop =>
    rw [Bool.and_eq_true, Bool.and_eq_true, beq_iff_eq] at h
    have hlength := congrArg List.length hdrop
    rw [List.length_drop, List.length_cons, h.1.2] at hlength
    omega
  next => cases h

/-- A digit is no dash, so the last dash of a deployed snapshot is the one in front of its build
number. -/
theorem not_mem_of_word? {digits : List Char} (h : Text.word? digits = some build) :
    '-' ∉ digits := by
  intro hmem
  have hdigit := Text.isDigit_of_word? h _ hmem
  revert hdigit
  decide

/-- A text is that of a deployed snapshot if and only if it is put together from a base, a timestamp
and a number. -/
theorem deployed?_eq_some_iff : deployed? cs = some (base, stamp, build) ↔
    ∃ number, cs = base ++ '-' :: stamp ++ '-' :: number ∧ '\n' ∉ base ∧ isTimestamp stamp ∧
      Text.word? number = some build := by
  constructor
  · intro h
    unfold deployed? at h
    obtain ⟨⟨front, number⟩, hcut, h⟩ := Option.bind_eq_some_iff.mp h
    obtain ⟨_, hbuild, h⟩ := Option.bind_eq_some_iff.mp h
    obtain ⟨hcs, -⟩ := Text.cutLast?_eq_some hcut
    dsimp only at h
    split at h
    next rest hdrop =>
      split at h
      next hparts =>
        obtain ⟨hbase, hrest⟩ := Prod.mk.inj (Option.some.inj h)
        obtain ⟨rfl, rfl⟩ := Prod.mk.inj hrest
        rw [Bool.and_eq_true, Bool.not_eq_true', List.contains_eq_mem,
          decide_eq_false_iff_not] at hparts
        refine ⟨number, ?_, hbase ▸ hparts.2, hparts.1, hbuild⟩
        rw [hcs, ← hbase, ← hdrop, List.take_append_drop]
      next => cases h
    next => cases h
  · rintro ⟨number, rfl, hbase, hstamp, hbuild⟩
    have hfront : (base ++ '-' :: stamp).length - 16 = base.length := by
      rw [List.length_append, List.length_cons, length_of_isTimestamp hstamp]
      omega
    unfold deployed?
    rw [Text.cutLast?_append (not_mem_of_word? hbuild), Option.bind_eq_bind, Option.bind_some]
    dsimp only
    rw [hbuild, Option.bind_eq_bind, Option.bind_some, hfront, List.take_left, List.drop_left]
    simp [hstamp, hbase]

lemma mem_of_deployed? (h : deployed? cs = some (base, stamp, build)) : ∀ c ∈ base, c ∈ cs := by
  obtain ⟨number, rfl, -⟩ := deployed?_eq_some_iff.mp h
  exact fun c hc => List.mem_append_left _ (List.mem_append_left _ hc)

theorem parse_of_none (h : deployed? text.toList = none) : parse text = .release text := by
  unfold parse
  rw [h]

theorem parse_of_some (h : deployed? text.toList = some (base, stamp, build)) :
    parse text = .snapshot (String.ofList (base ++ snapshotSuffix)) (String.ofList stamp)
      (some build) := by
  unfold parse
  rw [h]

/-- A base version is made of the text of the version and the snapshot ending. -/
theorem mem_baseVersion (h : c ∈ (parse text).baseVersion.toList) :
    c ∈ text.toList ∨ c ∈ snapshotSuffix := by
  rcases hdeployed : deployed? text.toList with - | ⟨base, stamp, build⟩
  · rw [parse_of_none hdeployed] at h
    exact .inl h
  · rw [parse_of_some hdeployed, baseVersion, String.toList_ofList, List.mem_append] at h
    exact h.imp_left (mem_of_deployed? hdeployed c)

theorem baseVersion_ne_nil (h : text.toList ≠ []) : (parse text).baseVersion.toList ≠ [] := by
  rcases hdeployed : deployed? text.toList with - | ⟨base, stamp, build⟩
  · rw [parse_of_none hdeployed]
    exact h
  · rw [parse_of_some hdeployed, baseVersion, String.toList_ofList]
    exact List.append_ne_nil_of_right_ne_nil _ (by decide)

/-- The snapshot ending is taken off once, also from a base that ends in it itself. -/
theorem stem_append (base : List Char) :
    stem (String.ofList (base ++ snapshotSuffix)) = String.ofList base := by
  have hsuffix : snapshotSuffix.isSuffixOf? (base ++ snapshotSuffix) = some base :=
    List.isSuffixOf?_eq_some_iff_append_eq.mpr rfl
  unfold stem
  rw [String.toList_ofList, hsuffix]

/-- The text of a deployed snapshot differs from what it was read from in no more than the digits of
its number. -/
theorem text_of_deployed? (h : deployed? text.toList = some (base, stamp, build)) :
    (parse text).text.toList = base ++ '-' :: stamp ++ '-' ::
      (toString build.toNat : String).toList := by
  have hdash : "-".toList = ['-'] := rfl
  rw [parse_of_some h, Version.text, stem_append]
  simp [hdash]

/-- What a version shows as is read back as the version. -/
theorem parse_text (text : String) : parse (parse text).text = parse text := by
  rcases hdeployed : deployed? text.toList with - | ⟨base, stamp, build⟩
  · rw [parse_of_none hdeployed]
    exact parse_of_none hdeployed
  · obtain ⟨number, -, hbase, hstamp, -⟩ := deployed?_eq_some_iff.mp hdeployed
    have hagain : deployed? (parse text).text.toList = some (base, stamp, build) :=
      deployed?_eq_some_iff.mpr ⟨_, text_of_deployed? hdeployed, hbase, hstamp,
        Text.word?_toString build⟩
    rw [parse_of_some hagain, parse_of_some hdeployed]

/-- The text of a version holds nothing new but digits. -/
theorem mem_text (h : c ∈ (parse text).text.toList) : c ∈ text.toList ∨ c.isDigit := by
  rcases hdeployed : deployed? text.toList with - | ⟨base, stamp, build⟩
  · rw [parse_of_none hdeployed] at h
    exact .inl h
  · obtain ⟨number, hcs, -⟩ := deployed?_eq_some_iff.mp hdeployed
    rw [text_of_deployed? hdeployed, List.mem_append] at h
    rw [hcs, List.mem_append]
    rcases h with h | h
    · exact .inl (.inl h)
    · rcases List.mem_cons.mp h with rfl | h
      · exact .inl (.inr List.mem_cons_self)
      · exact .inr (Text.isDigit_of_word? (Text.word?_toString build) c h)

theorem text_ne_nil (h : text.toList ≠ []) : (parse text).text.toList ≠ [] := by
  rcases hdeployed : deployed? text.toList with - | ⟨base, stamp, build⟩
  · rw [parse_of_none hdeployed]
    exact h
  · rw [text_of_deployed? hdeployed]
    simp

end FeatureDepot.Version

import SomeCode.MountedUnion

/-! What a client of the mounted union sees: the names in a directory, and the content of a file that
is read piece by piece. -/
namespace SomeCode
namespace MountedUnion

open FsPath FileTree SnapshotTree StrictWeak Transition UnionLookup UnionMount UnionViews MachineInt

/-- A client reads on until nothing comes, with requests of these sizes. -/
def copy (read : UInt64 → Int64 → ReadResult) : List UInt64 → ℕ → List UInt8
  | [], _ => []
  | size :: sizes, offset =>
    let r := read size (Int64.ofNat offset)
    if r.ret ≤ 0 then [] else r.bytes ++ copy read sizes (offset + r.ret.toNat)

/-- Sizes that are no errors when they are returned -/
def Sizes (sizes : List UInt64) : Prop := ∀ size ∈ sizes, 0 < size.toNat ∧ size.toNat < 2^31

theorem readFile_eq {content : List UInt8} (hlen : content.length < 2^63) {size : UInt64}
    (hsize : size.toNat < 2^31) {offset : ℕ} (hoff : offset ≤ content.length) :
    readFile content size (Int64.ofNat offset) =
      ⟨((content.drop offset).take size.toNat).length,(content.drop offset).take size.toNat⟩ := by
  have hclamp : (Int64.ofNat offset).toNatClampNeg = offset :=
    Int64.toNatClampNeg_ofNat_of_lt (by omega)
  have h0 : 0 ≤ Int64.ofNat offset := by
    rw [Int64.le_iff_toInt_le,Int64.toInt_ofNat_of_lt (by omega)]
    exact Int.natCast_nonneg offset
  have hu : (Int64.ofNat offset).toUInt64.toNat = offset := by
    rw [Int64.toNat_toUInt64_of_le h0,hclamp]
  have hl : (UInt64.ofNat content.length).toNat = content.length :=
    UInt64.toNat_ofNat_of_lt' (by rw [UInt64.size]; omega)
  have hwrap : ∀ n : ℕ, n < 2^31 → wrap 32 n = n := fun n hn => wrap_eq (by omega) (by omega)
  have hle : UInt64.ofNat content.length ≤ (Int64.ofNat offset).toUInt64 ↔
      content.length ≤ offset := by rw [UInt64.le_iff_toNat_le,hu,hl]
  rw [readFile]
  dsimp only
  by_cases hend : content.length ≤ offset
  · rw [if_pos (hle.2 hend),List.drop_eq_nil_of_le hend,List.take_nil]
    rfl
  · have hsum : (Int64.ofNat offset).toUInt64 + size ≤ UInt64.ofNat content.length ↔
        offset + size.toNat ≤ content.length := by
      rw [UInt64.le_iff_toNat_le,UInt64.toNat_add,hu,hl,Nat.mod_eq_of_lt (by omega)]
    rw [if_neg (mt hle.1 hend),hclamp,List.length_take,List.length_drop]
    by_cases hfit : offset + size.toNat ≤ content.length
    · rw [if_pos (hsum.2 hfit),Nat.min_eq_left (by omega),hwrap _ hsize]
    · have hrest : (UInt64.ofNat content.length - (Int64.ofNat offset).toUInt64).toNat =
          content.length - offset := by
        rw [UInt64.toNat_sub_of_le _ _ (by rw [UInt64.le_iff_toNat_le,hu,hl]; omega),hu,hl]
      rw [if_neg (mt hsum.1 hfit),hrest,Nat.min_eq_right (by omega),hwrap _ (by omega),
        List.take_of_length_le (by simp),List.take_of_length_le (by rw [List.length_drop]; omega)]

theorem copy_readFile {content : List UInt8} (hlen : content.length < 2^63) {sizes : List UInt64}
    (hsizes : Sizes sizes) {offset : ℕ} (hoff : offset ≤ content.length) :
    copy (readFile content) sizes offset =
      (content.drop offset).take (sizes.map UInt64.toNat).sum := by
  induction sizes generalizing offset with
  | nil => simp [copy]
  | cons size sizes ih =>
    rcases List.forall_mem_cons.1 hsizes with ⟨⟨hpos,hlt⟩,hrest⟩
    rw [copy,readFile_eq hlen hlt hoff]
    dsimp only
    have hlength : ((content.drop offset).take size.toNat).length =
        min size.toNat (content.length-offset) := by
      rw [List.length_take,List.length_drop]
    by_cases hend : content.length ≤ offset
    · rw [if_pos (by rw [hlength]; omega),List.drop_eq_nil_of_le hend,List.take_nil]
    · rw [if_neg (by rw [hlength]; omega),Int.toNat_natCast,ih hrest (by rw [hlength]; omega),
        List.map_cons,List.sum_cons,List.take_add,List.drop_drop,hlength]
      congr 1
      by_cases hfit : size.toNat ≤ content.length-offset
      · rw [Nat.min_eq_left hfit]
      · rw [List.drop_eq_nil_of_le (by omega),List.drop_eq_nil_of_le (by omega)]

section Directories

variable {Time : Type*} {s : State Time} {names : List Name} {n : Name}

theorem lookup_div_of_descend {t : Volume (Attr Time)} {dir : Path} (h : IsPlain dir)
    {a : Attr Time} {contents : Forest (Attr Time)}
    (hl : (t.lookup dir).bind (fun e => e.descend names) = some (.dir a contents)) :
    t.lookup (dir / relative names) = some (.dir a contents) := by
  by_cases hn : names = []
  · subst hn
    rw [relative_nil,t.lookup_div_empty h]
    rcases Option.bind_eq_some_iff.1 hl with ⟨e,he,hdesc⟩
    cases hdesc
    rw [he]
    rfl
  · rwa [div_relative h hn,t.lookup_foldl h]

/-- A directory of the mounted union lists the names that have a version below one of the input
directories, and no others. -/
theorem mem_readdir_iff (hd : ∀ dir ∈ s.inputDirs, IsPlain dir) :
    n.bytes ∈ (readdirCallback s (mountPath names)).2 ↔
      HasVersion s.tree s.inputDirs (names ++ [n]) := by
  constructor
  · exact hasVersion_of_readdir hd
  · rintro ⟨dir,hdir,hsome⟩
    have hplain := hd dir hdir
    rw [lookup_absolutePath _ hplain] at hsome
    simp only [Entry.descend_append,← Option.bind_assoc] at hsome
    cases hparent : (s.tree.lookup dir).bind (fun e => e.descend names) with
    | none => simp [hparent] at hsome
    | some e =>
      rw [hparent,Option.bind_some,Entry.descend_cons] at hsome
      cases e with
      | file a => simp [Entry.child] at hsome
      | dir a contents =>
        have hmem : n ∈ contents.names := by
          rw [Forest.mem_names_iff]
          simpa [Entry.child,Entry.descend_nil] using hsome
        have hlookup := lookup_div_of_descend hplain hparent
        have hsub : dir / skipSlash (mountPath names) ∈ subdirs s (mountPath names) := by
          apply List.mem_filter.2
          constructor
          · exact List.mem_map.2 ⟨dir,hdir,rfl⟩
          · change (s.tree.lookup (dir / relative names)).any Entry.isDir = true
            rw [hlookup]
            rfl
        have hfile : n.bytes ∈ filenames s.tree (dir / skipSlash (mountPath names)) := by
          change n.bytes ∈ filenames s.tree (dir / relative names)
          rw [filenames,hlookup]
          exact List.mem_map_of_mem hmem
        rw [readdirCallback,if_neg (List.ne_nil_of_mem hsub)]
        exact List.mem_cons_of_mem _ (List.mem_cons_of_mem _
          (mem_unique_iff.2 (List.mem_flatMap.2 ⟨_,hsub,hfile⟩)))

theorem mem_readdir_iff_sample :
    (sampleName 102 plain_f).bytes ∈ (readdirCallback (mount sampleSort
      (sampleTree (fileF 1 []) (fileF 2 []) (fileF_ok 1 []) (fileF_ok 2 [])) 0 sampleDirs)
        (mountPath [])).2 ↔
      HasVersion (sampleTree (fileF 1 []) (fileF 2 []) (fileF_ok 1 []) (fileF_ok 2 [])) sampleDirs
        [sampleName 102 plain_f] :=
  mem_readdir_iff fun dir hdir =>
    (sample_inputs (fileF 1 []) (fileF 2 []) (fileF_ok 1 []) (fileF_ok 2 []) dir hdir).1

end Directories

section Files

variable {Time : Type*} [LinearOrder Time]
  {sort : (Pathes → Pathes → Bool) → List Pathes → List Pathes} {t : Volume (Attr Time)}
  {missing : Time} {dirs : List Path} {s : State Time} {names : List Name}

structure Newest (t : Volume (Attr Time)) (dirs : List Path) (names : List Name)
    (e : Entry (Attr Time)) : Prop where
  version : ∃ dir ∈ dirs, t.lookup (absolutePath dir (relative names)) = some e
  newest : ∀ dir ∈ dirs, ∀ other, t.lookup (absolutePath dir (relative names)) = some other →
    other.attr.time ≤ e.attr.time

theorem Newest.of_serves {full : Path} {time : Time}
    (h : Serves Attr.time t dirs names full time) :
    ∃ e, t.lookup full = some e ∧ Newest t dirs names e := by
  rcases Option.map_eq_some_iff.1 h.modified with ⟨e,he,rfl⟩
  rcases h.version with ⟨dir,hdir,heq⟩
  refine ⟨e,he,⟨dir,hdir,heq.symm.trans he⟩,?_⟩
  intro dir' hdir' other hother
  exact h.newest dir' hdir' other.attr.time (by rw [times,hother]; rfl)

end Files

end MountedUnion
end SomeCode

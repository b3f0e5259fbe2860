/-
Where paths lead.

A path is a text, and following it takes a disk. The outputs of a build are named by texts: the
path of a source, cut in front of its file name, and a new name. This file says where such texts
lead. The name that a path ends in is the name at the head of its location, and a new name put in
its place leads into the same directory (`exists_folder_of_locate`); a name inside a directory
leads into where the path of the directory leads (`locate_join_eq_ok_iff`).

Following a path asks a disk for its directories only. Two disks with the same directories
therefore agree on where every path leads (`SameFolders.locate_eq_ok_iff`), whatever files were
made or removed in between.
-/
import Jack.Files.Disk

set_option autoImplicit false

namespace Jack

namespace Path

/-! ## Pieces -/

theorem pieces_ne_nil (path : List Char) : pieces path ≠ [] := by
  cases path with
  | nil => simp [pieces]
  | cons c rest =>
    rw [pieces]
    split
    · simp
    · split <;> simp

theorem pieces_cons {c : Char} (hc : c ≠ '/') {rest first : List Char} {more : List (List Char)}
    (hrest : pieces rest = first :: more) : pieces (c :: rest) = (c :: first) :: more := by
  rw [pieces, if_neg hc, hrest]

/-- A slash divides the pieces. -/
theorem pieces_append_slash (front rest : List Char) :
    pieces (front ++ '/' :: rest) = pieces front ++ pieces rest := by
  induction front with
  | nil => simp [pieces]
  | cons c front ih =>
    by_cases hc : c = '/'
    · simp [pieces, hc, ih]
    · obtain ⟨first, more, hfront⟩ := List.exists_cons_of_ne_nil (pieces_ne_nil front)
      rw [hfront] at ih
      rw [List.cons_append, pieces_cons hc ih, pieces_cons hc hfront]
      rfl

theorem pieces_of_not_mem {name : List Char} (hname : '/' ∉ name) : pieces name = [name] := by
  induction name with
  | nil => rfl
  | cons c rest ih =>
    have hc : c ≠ '/' := fun h => hname (h ▸ List.mem_cons_self)
    exact pieces_cons hc (ih fun hmem => hname (List.mem_cons_of_mem _ hmem))

theorem not_mem_of_mem_pieces {path piece : List Char} (hmem : piece ∈ pieces path) :
    '/' ∉ piece := by
  induction path generalizing piece with
  | nil =>
    rw [pieces, List.mem_singleton] at hmem
    simp [hmem]
  | cons c rest ih =>
    by_cases hc : c = '/'
    · rw [pieces, if_pos hc] at hmem
      rcases List.mem_cons.1 hmem with rfl | hmem
      · exact List.not_mem_nil
      · exact ih hmem
    · obtain ⟨first, more, hrest⟩ := List.exists_cons_of_ne_nil (pieces_ne_nil rest)
      rw [hrest] at ih
      rw [pieces_cons hc hrest] at hmem
      rcases List.mem_cons.1 hmem with rfl | hmem
      · intro hslash
        rcases List.mem_cons.1 hslash with hslash | hslash
        · exact hc hslash.symm
        · exact ih List.mem_cons_self hslash
      · exact ih (List.mem_cons_of_mem _ hmem)

/-- The pieces with slashes between them are the path. -/
theorem intercalate_pieces (path : List Char) : List.intercalate ['/'] (pieces path) = path := by
  induction path with
  | nil => rfl
  | cons c rest ih =>
    obtain ⟨first, more, hrest⟩ := List.exists_cons_of_ne_nil (pieces_ne_nil rest)
    rw [hrest] at ih
    by_cases hc : c = '/'
    · rw [pieces, if_pos hc, hrest, List.intercalate_cons_cons, ih, hc]
      rfl
    · rw [pieces_cons hc hrest]
      cases more with
      | nil =>
        rw [List.intercalate_singleton] at ih ⊢
        rw [ih]
      | cons second more =>
        rw [List.intercalate_cons_cons] at ih ⊢
        rw [← ih]
        rfl

theorem intercalate_append {front back : List (List Char)} (hfront : front ≠ [])
    (hback : back ≠ []) : List.intercalate ['/'] (front ++ back) =
      List.intercalate ['/'] front ++ '/' :: List.intercalate ['/'] back := by
  induction front with
  | nil => exact absurd rfl hfront
  | cons first more ih =>
    cases more with
    | nil =>
      obtain ⟨second, rest, rfl⟩ := List.exists_cons_of_ne_nil hback
      simp [List.intercalate_cons_cons]
    | cons second more =>
      have hrest := ih (List.cons_ne_nil _ _)
      rw [List.cons_append] at hrest
      rw [List.cons_append, List.cons_append, List.intercalate_cons_cons, hrest,
        List.intercalate_cons_cons]
      simp only [List.append_assoc]

/-- Pieces without slashes are the pieces of what they are joined to. -/
theorem pieces_intercalate {parts : List (List Char)} (hparts : parts ≠ [])
    (hslash : ∀ part ∈ parts, '/' ∉ part) : pieces (List.intercalate ['/'] parts) = parts := by
  induction parts with
  | nil => exact absurd rfl hparts
  | cons first more ih =>
    have hfirst := pieces_of_not_mem (hslash first List.mem_cons_self)
    cases more with
    | nil => rw [List.intercalate_singleton, hfirst]
    | cons second more =>
      have hrest := ih (List.cons_ne_nil _ _) fun part hmem =>
        hslash part (List.mem_cons_of_mem _ hmem)
      rw [List.intercalate_cons_cons, List.append_assoc, List.singleton_append,
        pieces_append_slash, hfirst, hrest, List.singleton_append]

/-- A path begins with a slash exactly if it is not empty and its first piece is. -/
theorem head?_eq_slash_iff {path first : List Char} {more : List (List Char)}
    (hpieces : pieces path = first :: more) (hpath : path ≠ []) :
    path.head? = some '/' ↔ first = [] := by
  obtain ⟨c, rest, rfl⟩ := List.exists_cons_of_ne_nil hpath
  by_cases hc : c = '/'
  · rw [pieces, if_pos hc] at hpieces
    cases hpieces
    simp [hc]
  · obtain ⟨_, _, hrest⟩ := List.exists_cons_of_ne_nil (pieces_ne_nil rest)
    rw [pieces_cons hc hrest] at hpieces
    cases hpieces
    simp [hc]

/-! ## Names -/

/-- A text that can be the name of something inside a directory. -/
structure Proper (name : List Char) : Prop where
  noSlash : '/' ∉ name
  notIdle : isIdle name = false
  notAbove : name ≠ ['.', '.']

/-- Dropping idle pieces in front leaves out idle pieces only. -/
theorem exists_idle (parts : List (List Char)) : ∃ idle, (∀ piece ∈ idle, isIdle piece = true) ∧
    parts = idle ++ parts.dropWhile isIdle := by
  induction parts with
  | nil => exact ⟨[], by simp, rfl⟩
  | cons part rest ih =>
    by_cases hpart : isIdle part = true
    · obtain ⟨idle, hidle, hrest⟩ := ih
      refine ⟨part :: idle, ?_, ?_⟩
      · intro piece hmem
        rcases List.mem_cons.1 hmem with rfl | hmem
        · exact hpart
        · exact hidle piece hmem
      · rw [List.dropWhile_cons_of_pos hpart, List.cons_append, ← hrest]
    · exact ⟨[], by simp, by rw [List.dropWhile_cons_of_neg hpart, List.nil_append]⟩

/-- A file name comes last among the pieces that lead somewhere, and the directory in front of
it is made of the pieces before. -/
theorem pieces_of_fileName? {path : String} {name : List Char}
    (hname : fileName? path = some name) :
    Proper name ∧ ∃ idle, (∀ piece ∈ idle, isIdle piece = true) ∧
      (pieces path.toList = name :: idle ∧ directory path = "" ∨
        ∃ front between, front ≠ [] ∧ (∀ piece ∈ between, isIdle piece = true) ∧
          pieces path.toList = front ++ (between ++ name :: idle) ∧
          directory path = ofPieces front) := by
  obtain ⟨first, rest, hpieces⟩ := List.exists_cons_of_ne_nil (pieces_ne_nil path.toList)
  have hbackwards : backwards path = (first, rest.reverse.dropWhile isIdle) := by
    rw [backwards, hpieces]
  have hproper : ∀ last ∈ pieces path.toList,
      (if (isIdle last || last == ['.', '.']) = true then none else some last) = some name →
      last = name ∧ Proper name := by
    intro last hmem hlast
    split at hlast
    · cases hlast
    · next hplain =>
      cases hlast
      simp only [Bool.or_eq_true, beq_iff_eq, not_or, Bool.not_eq_true] at hplain
      exact ⟨rfl, not_mem_of_mem_pieces hmem, hplain.1, hplain.2⟩
  -- behind the first piece there are, seen from the end, idle ones, the name and those before it
  obtain ⟨idle, hidle, hrest⟩ := exists_idle rest.reverse
  rw [fileName?, hbackwards] at hname
  rw [directory, hbackwards]
  cases hbehind : rest.reverse.dropWhile isIdle with
  | nil =>
    rw [hbehind] at hname hrest
    obtain ⟨rfl, hname⟩ := hproper first (hpieces ▸ List.mem_cons_self) hname
    refine ⟨hname, idle.reverse, fun piece hmem => hidle piece (List.mem_reverse.1 hmem), ?_⟩
    rw [List.append_nil, List.reverse_eq_iff] at hrest
    exact .inl ⟨by rw [hpieces, hrest], rfl⟩
  | cons last before =>
    rw [hbehind] at hname hrest
    rw [List.reverse_eq_iff, List.reverse_append, List.reverse_cons, List.append_assoc,
      List.singleton_append] at hrest
    obtain ⟨between, hbetween, hbefore⟩ := exists_idle before
    have hmem : last ∈ pieces path.toList := by
      rw [hpieces, hrest]
      simp
    obtain ⟨rfl, hname⟩ := hproper last hmem hname
    refine ⟨hname, idle.reverse, fun piece hmem => hidle piece (List.mem_reverse.1 hmem), ?_⟩
    refine .inr ⟨first :: (before.dropWhile isIdle).reverse, between.reverse,
      List.cons_ne_nil _ _, fun piece hmem => hbetween piece (List.mem_reverse.1 hmem), ?_, rfl⟩
    rw [hpieces, hrest, List.cons_append, ← List.append_assoc, ← List.reverse_append, ← hbefore]

theorem Proper.ne_nil {name : List Char} (hname : Proper name) : name ≠ [] := by
  rintro rfl
  exact absurd hname.notIdle (by decide)

/-- A name is put behind the path of a directory, with a slash in between unless there is one. -/
theorem join_cases {directory : String} (hdirectory : directory ≠ "") (name : String) :
    (∃ front, directory.toList = front ++ ['/'] ∧ join directory name = directory ++ name) ∨
      join directory name = directory ++ "/" ++ name := by
  rw [join, if_neg (by simpa using hdirectory)]
  split
  · next hlast =>
    obtain ⟨front, hfront⟩ := List.getLast?_eq_some_iff.1 (beq_iff_eq.1 hlast)
    exact .inl ⟨front, hfront, rfl⟩
  · exact .inr rfl

/-- The pieces of a name inside a directory. A slash at the end of the directory's path is taken
up by the name. -/
theorem pieces_join {directory name : String} (hdirectory : directory ≠ "")
    (hname : Proper name.toList) :
    (∃ front, pieces directory.toList = front ++ [[]] ∧
      pieces (join directory name).toList = front ++ [name.toList]) ∨
    pieces (join directory name).toList = pieces directory.toList ++ [name.toList] := by
  have hpiece := pieces_of_not_mem hname.noSlash
  rcases join_cases hdirectory name with ⟨front, hfront, hjoin⟩ | hjoin
  · left
    refine ⟨pieces front, ?_, ?_⟩
    · rw [hfront, pieces_append_slash]
      rfl
    · rw [hjoin, String.toList_append, hfront, List.append_assoc, List.singleton_append,
        pieces_append_slash, hpiece]
  · right
    have htext : (join directory name).toList = directory.toList ++ '/' :: name.toList := by
      rw [hjoin]
      simp
    rw [htext, pieces_append_slash, hpiece]

end Path

namespace Disk

/-! ## Following pieces -/

theorem follow_append (disk : Disk) (location : Location) (front back : List (List Char)) :
    disk.follow location (front ++ back) =
      (disk.follow location front).bind fun middle => disk.follow middle back := by
  induction front generalizing location with
  | nil => rfl
  | cons piece front ih =>
    rw [List.cons_append, follow, follow]
    split
    · rfl
    · rfl
    · split
      · exact ih location
      · split
        · exact ih location.tail
        · dsimp only
          split
          · exact ih _
          · rfl

theorem follow_append_eq_ok_iff {disk : Disk} {location last : Location}
    {front back : List (List Char)} :
    disk.follow location (front ++ back) = .ok last ↔
      ∃ middle, disk.follow location front = .ok middle ∧ disk.follow middle back = .ok last := by
  rw [follow_append]
  cases disk.follow location front with
  | error cause => simp [Except.bind]
  | ok middle => simp [Except.bind]

/-- Following a piece takes a directory to stand in. -/
theorem directory_of_follow_cons {disk : Disk} {location last : Location} {piece : List Char}
    {rest : List (List Char)} (hfollow : disk.follow location (piece :: rest) = .ok last) :
    disk.node? location = some .directory := by
  rw [follow] at hfollow
  split at hfollow
  · cases hfollow
  · cases hfollow
  · next hnode => exact hnode

/-- Idle pieces lead nowhere. -/
theorem follow_idle {disk : Disk} {location last : Location} {idle : List (List Char)}
    (hidle : ∀ piece ∈ idle, Path.isIdle piece = true)
    (hfollow : disk.follow location idle = .ok last) : last = location := by
  induction idle with
  | nil =>
    cases hfollow
    rfl
  | cons piece rest ih =>
    have hnode := directory_of_follow_cons hfollow
    rw [follow, hnode] at hfollow
    dsimp only at hfollow
    rw [if_pos (hidle piece List.mem_cons_self)] at hfollow
    exact ih (fun other hmem => hidle other (List.mem_cons_of_mem _ hmem)) hfollow

/-- A name leads into the directory that one stands in. -/
theorem follow_name_iff {disk : Disk} {location last : Location} {name : List Char}
    (hname : Path.Proper name) (rest : List (List Char)) :
    disk.follow location (name :: rest) = .ok last ↔
      disk.node? location = some .directory ∧
        (String.ofList name).utf8ByteSize ≤ maxNameBytes ∧
        disk.follow (String.ofList name :: location) rest = .ok last := by
  constructor
  · intro hfollow
    have hnode := directory_of_follow_cons hfollow
    rw [follow, hnode] at hfollow
    dsimp only at hfollow
    rw [if_neg (by simp [hname.notIdle]), if_neg hname.notAbove] at hfollow
    split at hfollow
    · next hsize => exact ⟨hnode, hsize, hfollow⟩
    · cases hfollow
  · rintro ⟨hnode, hsize, hfollow⟩
    rw [follow, hnode]
    dsimp only
    rw [if_neg (by simp [hname.notIdle]), if_neg hname.notAbove, if_pos hsize]
    exact hfollow

/-! ## Following paths -/

/-- Where the way of a path begins: at the root or in the current directory. -/
def origin (disk : Disk) (path : List Char) : Location :=
  if path.head? = some '/' then [] else disk.home

theorem locate_of_fits {disk : Disk} {path : String} (hpath : path ≠ "")
    (hnul : '\x00' ∉ path.toList) (hsize : path.utf8ByteSize ≤ maxPathBytes) :
    disk.locate path = disk.follow (disk.origin path.toList) (Path.pieces path.toList) := by
  rw [locate, if_neg (by simpa using hnul), if_neg (Nat.not_lt_of_le hsize)]
  split
  · next hempty => exact absurd (String.toList_eq_nil_iff.1 hempty) hpath
  · next rest habsolute =>
    rw [habsolute, origin, List.head?_cons, if_pos rfl, Path.pieces, if_pos rfl]
    -- the piece in front of the first slash is idle, at the root
    rfl
  · next hrelative =>
    have horigin : disk.origin path.toList = disk.home := by
      rw [origin, if_neg]
      intro hslash
      obtain ⟨rest, habsolute⟩ := List.head?_eq_some_iff.1 hslash
      exact hrelative rest habsolute
    rw [horigin]

/-- What a path has to be like to lead somewhere. -/
theorem locate_eq_ok_iff {disk : Disk} {path : String} {location : Location} :
    disk.locate path = .ok location ↔
      path ≠ "" ∧ '\x00' ∉ path.toList ∧ path.utf8ByteSize ≤ maxPathBytes ∧
        disk.follow (disk.origin path.toList) (Path.pieces path.toList) = .ok location := by
  constructor
  -- each of the three tests would have refused the path
  · intro hlocate
    have hpath : path ≠ "" := by
      rintro rfl
      cases hlocate
    have hnul : '\x00' ∉ path.toList := by
      intro hmem
      rw [locate, if_pos (by simpa using hmem)] at hlocate
      cases hlocate
    have hsize : path.utf8ByteSize ≤ maxPathBytes := by
      apply Nat.le_of_not_lt
      intro hlong
      rw [locate, if_neg (by simpa using hnul), if_pos hlong] at hlocate
      cases hlocate
    refine ⟨hpath, hnul, hsize, ?_⟩
    rw [← locate_of_fits hpath hnul hsize]
    exact hlocate
  · rintro ⟨hpath, hnul, hsize, hfollow⟩
    rw [locate_of_fits hpath hnul hsize]
    exact hfollow

/-! ## Names inside directories -/

/-- Where the path of a directory leads when names are put behind it. Without any path that is
the current directory. -/
def folder (disk : Disk) (directory : String) : Except IoCause Location :=
  if directory = "" then .ok disk.home else disk.locate directory

theorem follow_join_eq_ok_iff {disk : Disk} {directory name : String} {start location : Location}
    (hdirectory : directory ≠ "") (hname : Path.Proper name.toList) :
    disk.follow start (Path.pieces (Path.join directory name).toList) = .ok location ↔
      name.utf8ByteSize ≤ maxNameBytes ∧
        ∃ parent, disk.follow start (Path.pieces directory.toList) = .ok parent ∧
          disk.node? parent = some .directory ∧ location = name :: parent := by
  have hlast : ∀ parent, disk.follow parent [name.toList] = .ok location ↔
      disk.node? parent = some .directory ∧ name.utf8ByteSize ≤ maxNameBytes ∧
        location = name :: parent := by
    intro parent
    rw [follow_name_iff hname, String.ofList_toList, follow, Except.ok.injEq,
      eq_comm (a := location)]
  rcases Path.pieces_join hdirectory hname with ⟨front, hpieces, hjoin⟩ | hjoin
  -- the slash at the end asks for a directory, and so does the name
  · have hslash : ∀ middle parent, disk.follow middle [[]] = .ok parent ↔
        disk.node? middle = some .directory ∧ parent = middle := by
      intro middle parent
      constructor
      · intro hfollow
        exact ⟨directory_of_follow_cons hfollow, follow_idle (by simp [Path.isIdle]) hfollow⟩
      · rintro ⟨hnode, rfl⟩
        rw [follow, hnode]
        rfl
    rw [hjoin, hpieces, follow_append_eq_ok_iff]
    constructor
    · rintro ⟨middle, hfront, hname⟩
      obtain ⟨hnode, hsize, hlocation⟩ := (hlast middle).1 hname
      refine ⟨hsize, middle, ?_, hnode, hlocation⟩
      exact follow_append_eq_ok_iff.2 ⟨middle, hfront, (hslash middle middle).2 ⟨hnode, rfl⟩⟩
    · rintro ⟨hsize, parent, hparent, hnode, hlocation⟩
      obtain ⟨middle, hfront, hback⟩ := follow_append_eq_ok_iff.1 hparent
      obtain ⟨-, rfl⟩ := (hslash middle parent).1 hback
      exact ⟨parent, hfront, (hlast parent).2 ⟨hnode, hsize, hlocation⟩⟩
  · rw [hjoin, follow_append_eq_ok_iff]
    constructor
    · rintro ⟨parent, hparent, hname⟩
      obtain ⟨hnode, hsize, hlocation⟩ := (hlast parent).1 hname
      exact ⟨hsize, parent, hparent, hnode, hlocation⟩
    · rintro ⟨hsize, parent, hparent, hnode, hlocation⟩
      exact ⟨parent, hparent, (hlast parent).2 ⟨hnode, hsize, hlocation⟩⟩

/-- A name behind the path of a directory leads into the directory. -/
theorem locate_join_eq_ok_iff {disk : Disk} {directory name : String} {location : Location}
    (hname : Path.Proper name.toList) :
    disk.locate (Path.join directory name) = .ok location ↔
      (Path.join directory name).utf8ByteSize ≤ maxPathBytes ∧ '\x00' ∉ name.toList ∧
        name.utf8ByteSize ≤ maxNameBytes ∧
        ∃ parent, disk.folder directory = .ok parent ∧ disk.node? parent = some .directory ∧
          location = name :: parent := by
  rw [locate_eq_ok_iff]
  -- without a directory the name is looked for in the current one
  by_cases hdirectory : directory = ""
  · subst hdirectory
    have hhome : disk.origin name.toList = disk.home := by
      rw [origin, if_neg]
      intro hslash
      obtain ⟨rest, hrest⟩ := List.head?_eq_some_iff.1 hslash
      exact hname.noSlash (hrest ▸ List.mem_cons_self)
    have hne : name ≠ "" := fun hempty => hname.ne_nil (String.toList_eq_nil_iff.2 hempty)
    rw [folder, if_pos rfl, show Path.join "" name = name from rfl, hhome,
      Path.pieces_of_not_mem hname.noSlash, follow_name_iff hname, String.ofList_toList, follow]
    constructor
    · rintro ⟨-, hnul, hlong, hnode, hshort, hlocation⟩
      exact ⟨hlong, hnul, hshort, disk.home, rfl, hnode, (Except.ok.inj hlocation).symm⟩
    · rintro ⟨hlong, hnul, hshort, parent, hparent, hnode, rfl⟩
      cases hparent
      exact ⟨hne, hnul, hlong, hnode, hshort, rfl⟩
  -- otherwise a slash stands between the two, unless the directory ends in one
  · obtain ⟨slash, hslash, hjoin⟩ : ∃ slash, (slash = "" ∨ slash = "/") ∧
        Path.join directory name = directory ++ slash ++ name := by
      rcases Path.join_cases hdirectory name with ⟨front, -, hjoin⟩ | hjoin
      · exact ⟨"", .inl rfl, by rw [hjoin, String.append_empty]⟩
      · exact ⟨"/", .inr rfl, hjoin⟩
    have hne : Path.join directory name ≠ "" := by
      rw [hjoin]
      simp [hdirectory]
    have horigin : disk.origin (Path.join directory name).toList =
        disk.origin directory.toList := by
      obtain ⟨c, rest, hdirectory⟩ := List.exists_cons_of_ne_nil
        (fun hempty => hdirectory (String.toList_eq_nil_iff.1 hempty))
      rw [hjoin, String.toList_append, String.toList_append, hdirectory]
      rfl
    have hnul : '\x00' ∉ (Path.join directory name).toList ↔
        '\x00' ∉ directory.toList ∧ '\x00' ∉ name.toList := by
      rw [hjoin]
      rcases hslash with rfl | rfl <;> simp
    rw [folder, if_neg hdirectory, horigin, follow_join_eq_ok_iff hdirectory hname, hnul]
    have hsize : directory.utf8ByteSize ≤ (Path.join directory name).utf8ByteSize := by
      rw [hjoin, String.utf8ByteSize_append, String.utf8ByteSize_append]
      omega
    constructor
    · rintro ⟨-, ⟨hnul, hnul'⟩, hlong, hshort, parent, hparent, hrest⟩
      refine ⟨hlong, hnul', hshort, parent, ?_, hrest⟩
      exact locate_eq_ok_iff.2 ⟨hdirectory, hnul, Nat.le_trans hsize hlong, hparent⟩
    · rintro ⟨hlong, hnul', hshort, parent, hparent, hrest⟩
      obtain ⟨-, hnul, -, hparent⟩ := locate_eq_ok_iff.1 hparent
      exact ⟨hne, ⟨hnul, hnul'⟩, hlong, hshort, parent, hparent, hrest⟩

/-! ## The directory in front of a file name -/

/-- Pieces that a path begins with, as a path of their own: a beginning of the text that leads
where the pieces lead. -/
theorem locate_ofPieces {disk : Disk} {path : String} {front back : List (List Char)}
    {location last : Location} (hfront : front ≠ []) (hback : back ≠ [])
    (hpieces : Path.pieces path.toList = front ++ back) (hpath : disk.locate path = .ok last)
    (hfollow : disk.follow (disk.origin path.toList) front = .ok location) :
    Path.ofPieces front ≠ "" ∧ disk.locate (Path.ofPieces front) = .ok location := by
  obtain ⟨hne, hnul, hsize, -⟩ := locate_eq_ok_iff.1 hpath
  have htext : path.toList =
      List.intercalate ['/'] front ++ '/' :: List.intercalate ['/'] back := by
    rw [← Path.intercalate_append hfront hback, ← hpieces, Path.intercalate_pieces]
  have hslash : ∀ part ∈ front, '/' ∉ part := fun part hmem =>
    Path.not_mem_of_mem_pieces (hpieces ▸ List.mem_append_left back hmem)
  -- the pieces in front of a leading slash alone are the root
  by_cases hroot : front = [[]]
  · subst hroot
    have horigin : disk.origin path.toList = [] := by
      rw [origin, if_pos]
      rw [htext]
      rfl
    rw [horigin] at hfollow
    obtain rfl := follow_idle (by simp [Path.isIdle]) hfollow
    exact ⟨by decide, rfl⟩
  · have hof : Path.ofPieces front = String.ofList (List.intercalate ['/'] front) := by
      unfold Path.ofPieces
      split
      · exact absurd rfl hroot
      · rfl
    have hfirst : List.intercalate ['/'] front ≠ [] := by
      intro hempty
      have hjoined := Path.pieces_intercalate hfront hslash
      rw [hempty] at hjoined
      exact hroot hjoined.symm
    have hbegin : path = Path.ofPieces front ++
        String.ofList ('/' :: List.intercalate ['/'] back) := by
      rw [hof, ← String.ofList_append, ← htext, String.ofList_toList]
    have hofne : Path.ofPieces front ≠ "" := by
      rw [hof]
      simpa using hfirst
    have horigin : disk.origin (Path.ofPieces front).toList = disk.origin path.toList := by
      obtain ⟨c, rest, hcons⟩ := List.exists_cons_of_ne_nil hfirst
      rw [htext, hof, String.toList_ofList, hcons]
      rfl
    refine ⟨hofne, locate_eq_ok_iff.2 ⟨hofne, ?_, ?_, ?_⟩⟩
    · intro hmem
      apply hnul
      rw [hbegin, String.toList_append]
      exact List.mem_append_left _ hmem
    · rw [hbegin, String.utf8ByteSize_append] at hsize
      omega
    · rw [horigin, hof, String.toList_ofList, Path.pieces_intercalate hfront hslash]
      exact hfollow

/-- A file name is the head of the location that its path leads to, and the directory in front
of it is the rest. -/
theorem exists_folder_of_locate {disk : Disk} {path : String} {name : List Char}
    {location : Location} (hname : Path.fileName? path = some name)
    (hlocate : disk.locate path = .ok location) :
    ∃ parent, disk.folder (Path.directory path) = .ok parent ∧
      location = String.ofList name :: parent := by
  obtain ⟨hproper, idle, hidle, hcases⟩ := Path.pieces_of_fileName? hname
  obtain ⟨hne, -, -, hfollow⟩ := locate_eq_ok_iff.1 hlocate
  -- behind the name the location stays the same
  have hbehind : ∀ parent, disk.follow parent (name :: idle) = .ok location →
      location = String.ofList name :: parent := by
    intro parent hrest
    obtain ⟨-, -, hrest⟩ := (follow_name_iff hproper idle).1 hrest
    exact follow_idle hidle hrest
  rcases hcases with ⟨hpieces, hdirectory⟩ | ⟨front, between, hfront, hbetween, hpieces, hdirectory⟩
  · refine ⟨disk.home, by rw [hdirectory, folder, if_pos rfl], hbehind _ ?_⟩
    have horigin : disk.origin path.toList = disk.home := by
      rw [origin, if_neg]
      rw [Path.head?_eq_slash_iff hpieces (by simpa using hne)]
      exact hproper.ne_nil
    rw [horigin, hpieces] at hfollow
    exact hfollow
  · rw [hpieces] at hfollow
    obtain ⟨parent, hparent, hback⟩ := follow_append_eq_ok_iff.1 hfollow
    obtain ⟨middle, hmiddle, hrest⟩ := follow_append_eq_ok_iff.1 hback
    rw [follow_idle hbetween hmiddle] at hrest
    obtain ⟨hdir, hfolder⟩ := locate_ofPieces hfront (by simp) hpieces hlocate hparent
    refine ⟨parent, ?_, hbehind parent hrest⟩
    rw [hdirectory, folder, if_neg hdir, hfolder]

/-! ## Disks with the same directories -/

/-- Two disks with the same directories, the same current one and the same locked ones. -/
structure SameFolders (disk other : Disk) : Prop where
  home : other.home = disk.home
  locked : other.locked = disk.locked
  directory_iff : ∀ location,
    other.node? location = some .directory ↔ disk.node? location = some .directory

theorem SameFolders.refl (disk : Disk) : disk.SameFolders disk := ⟨rfl, rfl, fun _ => Iff.rfl⟩

theorem SameFolders.trans {disk other last : Disk} (h : disk.SameFolders other)
    (h' : other.SameFolders last) : disk.SameFolders last :=
  ⟨h'.home.trans h.home, h'.locked.trans h.locked, fun location =>
    (h'.directory_iff location).trans (h.directory_iff location)⟩

theorem SameFolders.symm {disk other : Disk} (h : disk.SameFolders other) :
    other.SameFolders disk :=
  ⟨h.home.symm, h.locked.symm, fun location => (h.directory_iff location).symm⟩

theorem SameFolders.follow_eq_ok {disk other : Disk} (h : disk.SameFolders other)
    {location last : Location} {pieces : List (List Char)}
    (hfollow : disk.follow location pieces = .ok last) :
    other.follow location pieces = .ok last := by
  induction pieces generalizing location with
  | nil => exact hfollow
  | cons piece rest ih =>
    have hnode := directory_of_follow_cons hfollow
    rw [follow, hnode] at hfollow
    rw [follow, (h.directory_iff location).2 hnode]
    dsimp only at hfollow ⊢
    split at hfollow
    · next hidle => rw [if_pos hidle, ih hfollow]
    · next hidle =>
      rw [if_neg hidle]
      split at hfollow
      · next habove => rw [if_pos habove, ih hfollow]
      · next habove =>
        rw [if_neg habove]
        split at hfollow
        · next hsize => rw [if_pos hsize, ih hfollow]
        · cases hfollow

/-- Where a path leads depends on the directories only. -/
theorem SameFolders.locate_eq_ok_iff {disk other : Disk} (h : disk.SameFolders other)
    {path : String} {location : Location} :
    other.locate path = .ok location ↔ disk.locate path = .ok location := by
  have horigin : other.origin path.toList = disk.origin path.toList := by
    rw [origin, origin, h.home]
  rw [Disk.locate_eq_ok_iff, Disk.locate_eq_ok_iff, horigin]
  constructor
  · rintro ⟨hpath, hnul, hsize, hfollow⟩
    exact ⟨hpath, hnul, hsize, h.symm.follow_eq_ok hfollow⟩
  · rintro ⟨hpath, hnul, hsize, hfollow⟩
    exact ⟨hpath, hnul, hsize, h.follow_eq_ok hfollow⟩

theorem SameFolders.folder_eq_ok_iff {disk other : Disk} (h : disk.SameFolders other)
    {directory : String} {location : Location} :
    other.folder directory = .ok location ↔ disk.folder directory = .ok location := by
  unfold folder
  split
  · rw [h.home]
  · exact h.locate_eq_ok_iff

end Disk

end Jack

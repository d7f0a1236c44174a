import Chip8.Machine.Config
import Chip8.Proofs.Text.Numeral

/-! # Options of a configuration

Which texts describe which configuration.

* **Parameters.** A configuration is known by the numbers of its four parameters (`eq_of_get`).
* **Options.** `Gives piece p n` says that a piece of a text is an option, and which. A piece is one
  option at most (`Gives.unique`), and options are taken over one by one (`setPieces_cons_iff`).
* **Descriptions.** `Describes base ps d` says what the pieces `ps` say together, without an order.
  Taking them over one by one gives what they describe (`setPieces_iff`).
* **Written configurations.** The text of a configuration gives each of its parameters once
  (`describes_text`), and so every shape that a machine can have, with sides of 64 bits, can be
  written (`exists_text_iff`).
* `parse_exact`: a text is read exactly if its options describe a shape that a machine can have. -/

namespace Chip8.Config

/-! ### Parameters -/

/-- What can be chosen about a machine. -/
inductive Parameter where
  | memory
  | width
  | height
  | load
deriving DecidableEq, Repr

/-- How the parameter is called in a text. -/
def Parameter.name : Parameter → String
  | memory => "memory"
  | width => "width"
  | height => "height"
  | load => "load"

/-- The number of a parameter. -/
def get (c : Config) : Parameter → Nat
  | .memory => c.memorySize
  | .width => c.screenWidth
  | .height => c.screenHeight
  | .load => c.loadAddress.toNat

/-- Give a parameter a number. -/
def put (c : Config) (n : Nat) : Parameter → Config
  | .memory => { c with memorySize := n }
  | .width => { c with screenWidth := n }
  | .height => { c with screenHeight := n }
  | .load => { c with loadAddress := n.toUInt16 }

variable {c d : Config} {p q : Parameter} {n k : Nat} {seen : List Parameter}
  {piece key value : List Char} {ps : List (List Char)}

theorem Parameter.name_inj (h : p.name.toList = q.name.toList) : p = q := by
  revert h
  cases p <;> cases q <;> decide

theorem name_mem_iff : p.name.toList ∈ seen.map (·.name.toList) ↔ p ∈ seen := by
  refine ⟨fun h => ?_, List.mem_map_of_mem⟩
  obtain ⟨q, hq, heq⟩ := List.mem_map.mp h
  exact Parameter.name_inj heq ▸ hq

theorem eq_of_get (h : ∀ p, c.get p = d.get p) : c = d := by
  have hmemory : c.memorySize = d.memorySize := h .memory
  have hwidth : c.screenWidth = d.screenWidth := h .width
  have hheight : c.screenHeight = d.screenHeight := h .height
  have hload : c.loadAddress = d.loadAddress := UInt16.toNat_inj.mp (h .load)
  cases c
  cases d
  simp_all

/-- The load address has sixteen bits. -/
theorem get_put (hn : p = .load → n ≤ 0xFFFF) (q : Parameter) :
    (c.put n p).get q = if q = p then n else c.get q := by
  cases p with
  | load =>
      have hword : n.toUInt16.toNat = n := Nat.mod_eq_of_lt (Nat.lt_succ_of_le (hn rfl))
      cases q <;> simp [put, get, hword]
  | _ => cases q <;> simp [put, get]

theorem setOption_eq_ok_iff :
    c.setOption key value n = .ok d ↔
      ∃ p : Parameter, key = p.name.toList ∧ (p = .load → n ≤ 0xFFFF) ∧ d = c.put n p := by
  have hkey : ∀ s : String, String.ofList key = s ↔ key = s.toList := by
    intro s
    constructor
    · rintro rfl
      exact String.toList_ofList.symm
    · rintro rfl
      exact String.ofList_toList
  constructor
  · intro h
    unfold setOption at h
    split at h
    · next hname => exact ⟨.memory, (hkey _).mp hname, nofun, (Except.ok.inj h).symm⟩
    · next hname => exact ⟨.width, (hkey _).mp hname, nofun, (Except.ok.inj h).symm⟩
    · next hname => exact ⟨.height, (hkey _).mp hname, nofun, (Except.ok.inj h).symm⟩
    · next hname =>
        split at h
        · next hfits =>
            exact ⟨.load, (hkey _).mp hname, fun _ => Nat.le_of_lt_succ hfits,
              (Except.ok.inj h).symm⟩
        · cases h
    · cases h
  · rintro ⟨p, rfl, hn, rfl⟩
    cases p with
    | load =>
        have hfits : n < 0x10000 := Nat.lt_succ_of_le (hn rfl)
        exact if_pos hfits
    | _ => rfl

/-! ### Options -/

/-- The piece of a text gives the parameter the number: blanks apart, it is the name of the
parameter, the sign `=` and a numeral. -/
def Gives (piece : List Char) (p : Parameter) (n : Nat) : Prop :=
  ∃ key value, Blank.trim piece = key ++ '=' :: value ∧ '=' ∉ key ∧
    Blank.trim key = p.name.toList ∧ Numeral.ofUser? (Blank.trim value) = some n ∧
    (p = .load → n ≤ 0xFFFF)

/-- A text has at most one first sign `=`. -/
theorem cut_iff {text : List Char} :
    text = key ++ '=' :: value ∧ '=' ∉ key ↔
      text.takeWhile (· ≠ '=') = key ∧ text.dropWhile (· ≠ '=') = '=' :: value := by
  constructor
  · rintro ⟨rfl, hkey⟩
    have hall : ∀ ch ∈ key, decide (ch ≠ '=') = true := by
      intro ch hch
      have hne : ch ≠ '=' := ne_of_mem_of_not_mem hch hkey
      exact decide_eq_true hne
    rw [List.takeWhile_append_of_pos hall, List.dropWhile_append_of_pos hall]
    simp
  · rintro ⟨rfl, hvalue⟩
    refine ⟨?_, fun hmem => ?_⟩
    · rw [← hvalue, List.takeWhile_append_dropWhile]
    · have hne := List.all_eq_true.mp List.all_takeWhile '=' hmem
      simp at hne

/-- What is left of a text in front of which no sign `=` stands begins with one. -/
theorem head_of_dropWhile {text : List Char} {ch : Char}
    (h : text.dropWhile (· ≠ '=') = ch :: value) : ch = '=' := by
  have hhead := List.head?_dropWhile_not (fun ch : Char => decide (ch ≠ '=')) text
  rw [h] at hhead
  simpa using hhead

theorem Gives.unique (h : Gives piece p n) (h' : Gives piece q k) : p = q ∧ n = k := by
  obtain ⟨key, value, htrim, hno, hkey, hvalue, _⟩ := h
  obtain ⟨key', value', htrim', hno', hkey', hvalue', _⟩ := h'
  obtain ⟨htake, hdrop⟩ := cut_iff.mp ⟨htrim, hno⟩
  obtain ⟨htake', hdrop'⟩ := cut_iff.mp ⟨htrim', hno'⟩
  obtain rfl : key = key' := htake.symm.trans htake'
  obtain rfl : value = value' := (List.cons.inj (hdrop.symm.trans hdrop')).2
  exact ⟨Parameter.name_inj (hkey.symm.trans hkey'), Option.some.inj (hvalue.symm.trans hvalue')⟩

/-! ### Steps -/

theorem setPieces_of_blank {seen : List (List Char)} (h : Blank.trim piece = []) :
    c.setPieces seen (piece :: ps) = c.setPieces seen ps :=
  if_pos (by rw [h]; rfl)

/-- A piece with anything in it has to give a number to a parameter that had none before. -/
theorem setPieces_cons_iff {seen : List (List Char)} (hpiece : Blank.trim piece ≠ []) :
    c.setPieces seen (piece :: ps) = .ok d ↔
      ∃ p n, Gives piece p n ∧ p.name.toList ∉ seen ∧
        (c.put n p).setPieces (p.name.toList :: seen) ps = .ok d := by
  have hempty : ¬(Blank.trim piece).isEmpty = true := by simpa using hpiece
  have hstep : c.setPieces seen (piece :: ps) = _ := if_neg hempty
  rw [hstep]
  dsimp only
  constructor
  · intro h
    split at h
    · cases h
    · next ch rest hdrop =>
        obtain rfl := head_of_dropWhile hdrop
        obtain ⟨htrim, hno⟩ := cut_iff.mpr ⟨rfl, hdrop⟩
        split at h
        · cases h
        · next hseen =>
            split at h
            · cases h
            · next n hvalue =>
                cases hset : c.setOption
                    (Blank.trim ((Blank.trim piece).takeWhile (· ≠ '='))) (Blank.trim rest) n with
                | error e =>
                    rw [hset] at h
                    cases h
                | ok c' =>
                    rw [hset] at h
                    obtain ⟨p, hkey, hfits, rfl⟩ := setOption_eq_ok_iff.mp hset
                    rw [hkey] at hseen h
                    exact ⟨p, n, ⟨_, rest, htrim, hno, hkey, hvalue, hfits⟩, hseen, h⟩
  · rintro ⟨p, n, ⟨key, value, htrim, hno, hkey, hvalue, hfits⟩, hseen, h⟩
    obtain ⟨htake, hdrop⟩ := cut_iff.mp ⟨htrim, hno⟩
    have hset : c.setOption p.name.toList (Blank.trim value) n = .ok (c.put n p) :=
      setOption_eq_ok_iff.mpr ⟨p, rfl, hfits, rfl⟩
    rw [hdrop, htake, hkey]
    dsimp only
    rw [if_neg hseen, hvalue]
    dsimp only
    rw [hset]
    exact h

/-! ### Descriptions -/

/-- The pieces describe `d`, which is `base` where they are silent. -/
structure Describes (base : Config) (ps : List (List Char)) (d : Config) : Prop where
  written : ∀ piece ∈ ps, ∃ p n, Gives piece p n
  once : ps.Pairwise fun piece other => ¬∃ p n k, Gives piece p n ∧ Gives other p k
  given : ∀ piece ∈ ps, ∀ p n, Gives piece p n → d.get p = n
  silent : ∀ p, (∀ piece ∈ ps, ∀ n, ¬Gives piece p n) → d.get p = base.get p

theorem describes_nil_iff : Describes c [] d ↔ d = c := by
  constructor
  · intro h
    exact eq_of_get fun p => h.silent p nofun
  · rintro rfl
    exact ⟨nofun, .nil, nofun, fun _ _ => rfl⟩

/-- The first piece changes what the others start from, and they are silent on its parameter. -/
theorem describes_cons_iff (hg : Gives piece p n) :
    Describes c (piece :: ps) d ↔
      Describes (c.put n p) ps d ∧ ∀ other ∈ ps, ∀ k, ¬Gives other p k := by
  have hput : ∀ q, (c.put n p).get q = if q = p then n else c.get q := by
    obtain ⟨_, _, _, _, _, _, hfits⟩ := hg
    exact get_put hfits
  constructor
  · intro h
    obtain ⟨hfirst, honce⟩ := List.pairwise_cons.mp h.once
    refine ⟨⟨fun other ho => h.written other (.tail _ ho), honce,
      fun other ho => h.given other (.tail _ ho), fun q hq => ?_⟩, fun other ho k hk => ?_⟩
    · rw [hput]
      split
      · next heq => exact heq ▸ h.given piece (.head _) p n hg
      · next hne =>
          refine h.silent q fun other ho k hk => ?_
          rcases List.mem_cons.mp ho with rfl | ho
          · exact hne (hg.unique hk).1.symm
          · exact hq other ho k hk
    · exact hfirst other ho ⟨p, n, k, hg, hk⟩
  · rintro ⟨h, hother⟩
    refine ⟨fun other ho => ?_, List.pairwise_cons.mpr ⟨fun other ho hboth => ?_, h.once⟩,
      fun other ho q k hk => ?_, fun q hq => ?_⟩
    · rcases List.mem_cons.mp ho with rfl | ho
      · exact ⟨p, n, hg⟩
      · exact h.written other ho
    · obtain ⟨q, _, k, hq, hk⟩ := hboth
      obtain ⟨rfl, -⟩ := hg.unique hq
      exact hother other ho k hk
    · rcases List.mem_cons.mp ho with rfl | ho
      · obtain ⟨rfl, rfl⟩ := hg.unique hk
        rw [h.silent p hother, hput, if_pos rfl]
      · exact h.given other ho q k hk
    · have hne : q ≠ p := fun heq => hq piece (.head _) n (heq ▸ hg)
      rw [h.silent q fun other ho => hq other (.tail _ ho), hput, if_neg hne]

theorem exists_describes (hwritten : ∀ piece ∈ ps, ∃ p n, Gives piece p n)
    (honce : ps.Pairwise fun piece other => ¬∃ p n k, Gives piece p n ∧ Gives other p k)
    (c : Config) : ∃ d, Describes c ps d := by
  induction ps generalizing c with
  | nil => exact ⟨c, describes_nil_iff.mpr rfl⟩
  | cons piece ps ih =>
      obtain ⟨hfirst, honce⟩ := List.pairwise_cons.mp honce
      obtain ⟨p, n, hg⟩ := hwritten piece (.head _)
      obtain ⟨d, hd⟩ := ih (fun other ho => hwritten other (.tail _ ho)) honce (c.put n p)
      exact ⟨d, (describes_cons_iff hg).mpr
        ⟨hd, fun other ho k hk => hfirst other ho ⟨p, n, k, hg, hk⟩⟩⟩

namespace Describes

/-- The number of a parameter is given by a piece, or is the one that it had before. -/
theorem get_cases {base : Config} (h : Describes base ps d) (p : Parameter) :
    (∃ piece ∈ ps, Gives piece p (d.get p)) ∨
      (∀ piece ∈ ps, ∀ n, ¬Gives piece p n) ∧ d.get p = base.get p := by
  by_cases hgiven : ∃ piece ∈ ps, ∃ n, Gives piece p n
  · obtain ⟨piece, hpiece, n, hg⟩ := hgiven
    exact .inl ⟨piece, hpiece, h.given piece hpiece p n hg ▸ hg⟩
  · have hsilent : ∀ piece ∈ ps, ∀ n, ¬Gives piece p n := fun piece hpiece n hg =>
      hgiven ⟨piece, hpiece, n, hg⟩
    exact .inr ⟨hsilent, h.silent p hsilent⟩

/-- The pieces describe one configuration. -/
theorem unique {base : Config} (h : Describes base ps c) (h' : Describes base ps d) : c = d := by
  refine eq_of_get fun p => ?_
  rcases h.get_cases p with ⟨piece, hpiece, hg⟩ | ⟨hsilent, hbase⟩
  · exact (h'.given piece hpiece p _ hg).symm
  · rw [hbase, h'.silent p hsilent]

/-- The numbers of a description are 64-bit words, if those it starts from are. -/
theorem get_le {base : Config} (h : Describes base ps d)
    (hbase : base.get p ≤ Numeral.wordMax) : d.get p ≤ Numeral.wordMax := by
  rcases h.get_cases p with ⟨_, _, _, _, _, _, _, hnumber, _⟩ | ⟨_, heq⟩
  · exact Numeral.ofUser?_le hnumber
  · exact heq ▸ hbase

/-- Their order makes no difference. -/
theorem perm {base : Config} {qs : List (List Char)} (hperm : ps.Perm qs)
    (h : Describes base ps d) : Describes base qs d where
  written piece hpiece := h.written piece (hperm.mem_iff.mpr hpiece)
  once := by
    refine (hperm.pairwise_iff ?_).mp h.once
    rintro piece other hnone ⟨p, n, k, hn, hk⟩
    exact hnone ⟨p, k, n, hk, hn⟩
  given piece hpiece := h.given piece (hperm.mem_iff.mpr hpiece)
  silent p hp := h.silent p fun piece hpiece => hp piece (hperm.mem_iff.mp hpiece)

end Describes

/-! ### Runs -/

/-- The pieces that have anything in them. -/
def nonblank (ps : List (List Char)) : List (List Char) :=
  ps.filter fun piece => !(Blank.trim piece).isEmpty

/-- **Taking options over.** The pieces have to describe the resulting configuration, and be silent
on the parameters that were given before. -/
theorem setPieces_iff :
    c.setPieces (seen.map (·.name.toList)) ps = .ok d ↔
      Describes c (nonblank ps) d ∧ ∀ piece ∈ nonblank ps, ∀ p n, Gives piece p n → p ∉ seen := by
  induction ps generalizing c seen with
  | nil =>
      rw [show c.setPieces _ [] = .ok c from rfl, Except.ok.injEq, nonblank, List.filter_nil,
        describes_nil_iff]
      exact ⟨fun h => ⟨h.symm, nofun⟩, fun h => h.1.symm⟩
  | cons piece ps ih =>
      by_cases hpiece : Blank.trim piece = []
      · have hskip : nonblank (piece :: ps) = nonblank ps :=
          List.filter_cons_of_neg (by simp [hpiece])
        rw [setPieces_of_blank hpiece, ih, hskip]
      · have hkeep : nonblank (piece :: ps) = piece :: nonblank ps :=
          List.filter_cons_of_pos (by simp [hpiece])
        have hrest : ∀ p n, (c.put n p).setPieces (p.name.toList :: seen.map (·.name.toList)) ps =
            .ok d ↔ Describes (c.put n p) (nonblank ps) d ∧
              ∀ other ∈ nonblank ps, ∀ q k, Gives other q k → q ∉ p :: seen :=
          fun p n => @ih (c.put n p) (p :: seen)
        rw [setPieces_cons_iff hpiece, hkeep]
        constructor
        · rintro ⟨p, n, hg, hp, h⟩
          obtain ⟨hd, hfresh⟩ := (hrest p n).mp h
          refine ⟨(describes_cons_iff hg).mpr ⟨hd, fun other ho k hk => ?_⟩,
            fun other ho q k hk => ?_⟩
          · exact hfresh other ho p k hk (.head _)
          · rcases List.mem_cons.mp ho with rfl | ho
            · exact (hg.unique hk).1 ▸ mt name_mem_iff.mpr hp
            · exact fun hq => hfresh other ho q k hk (.tail _ hq)
        · rintro ⟨hd, hfresh⟩
          obtain ⟨p, n, hg⟩ := hd.written piece (.head _)
          obtain ⟨hd, hother⟩ := (describes_cons_iff hg).mp hd
          refine ⟨p, n, hg, mt name_mem_iff.mp (hfresh piece (.head _) p n hg),
            (hrest p n).mpr ⟨hd, fun other ho q k hk hq => ?_⟩⟩
          rcases List.mem_cons.mp hq with rfl | hq
          · exact hother other ho k hk
          · exact hfresh other (.tail _ ho) q k hk hq

/-! ### Texts -/

/-- The options of a text: what stands between its commas, if anything does. -/
def options (text : String) : List (List Char) := nonblank (text.toList.splitOn ',')

theorem pieces_eq_splitOn (cs : List Char) : pieces cs = cs.splitOn ',' := by
  rw [List.splitOn_eq_splitOnP]
  induction cs with
  | nil => rfl
  | cons ch cs ih =>
      rw [pieces, List.splitOnP_cons_eq_if_modifyHead, ih]
      by_cases hcomma : ch = ','
      · simp [hcomma]
      · rw [if_neg hcomma, if_neg (by simpa using hcomma)]
        cases hsplit : cs.splitOnP (· == ',') with
        | nil => exact absurd hsplit (List.splitOnP_ne_nil _ cs)
        | cons p ps => rfl

/-- A shape that a machine can have. -/
structure Possible (c : Config) : Prop where
  room : 80 ≤ c.memorySize
  reach : c.memorySize ≤ 0x10000
  load : c.loadAddress.toNat < c.memorySize
  width : 0 < c.screenWidth
  height : 0 < c.screenHeight
  aligned : c.screenWidth % 8 = 0

theorem check_eq_ok_iff_possible : c.check = .ok d ↔ d = c ∧ c.Possible := by
  rw [check_eq_ok_iff]
  constructor
  · rintro ⟨h, hreach, hload, hroom, hwidth, hheight, haligned⟩
    exact ⟨h, hroom, hreach, hload, hwidth, hheight, haligned⟩
  · rintro ⟨h, hpossible⟩
    exact ⟨h, hpossible.reach, hpossible.load, hpossible.room, hpossible.width, hpossible.height,
      hpossible.aligned⟩

theorem parse_eq_ok_iff {text : String} :
    parse text = .ok c ↔ Describes standard (options text) c ∧ c.Possible := by
  have hpieces : nonblank (pieces text.toList) = options text := by rw [pieces_eq_splitOn, options]
  have hrun : ∀ d, standard.setPieces [] (pieces text.toList) = .ok d ↔
      Describes standard (options text) d := by
    intro d
    have htaken : standard.setPieces (([] : List Parameter).map (·.name.toList))
        (pieces text.toList) = .ok d ↔ _ := setPieces_iff
    rw [← hpieces]
    exact htaken.trans ⟨And.left, fun h => ⟨h, nofun⟩⟩
  unfold parse
  cases hset : standard.setPieces [] (pieces text.toList) with
  | error e =>
      refine ⟨fun h => (by cases h), fun h => ?_⟩
      rw [(hrun c).mpr h.1] at hset
      cases hset
  | ok d =>
      show d.check = .ok c ↔ _
      rw [check_eq_ok_iff_possible]
      have hd := (hrun d).mp hset
      constructor
      · rintro ⟨rfl, hpossible⟩
        exact ⟨hd, hpossible⟩
      · rintro ⟨hc, hpossible⟩
        obtain rfl := hc.unique hd
        exact ⟨rfl, hpossible⟩

/-! ### Written configurations -/

/-- All parameters, in the order in which they are written. -/
def parameters : List Parameter := [.memory, .width, .height, .load]

theorem mem_parameters (p : Parameter) : p ∈ parameters := by
  cases p <;> decide

/-- How the number of a parameter is written. -/
def numeral (c : Config) : Parameter → List Char
  | .load => '0' :: 'x' :: (Numeral.hex 1 c.loadAddress.toNat).toList
  | p => (Numeral.decimal (c.get p)).toList

/-- How a parameter is written. -/
def written (c : Config) (p : Parameter) : List Char := p.name.toList ++ '=' :: c.numeral p

theorem toList_text (c : Config) : c.text.toList = [','].intercalate (parameters.map c.written) := by
  simp [text, parameters, written, numeral, Parameter.name, get, List.intercalate]

/-- A character that neither ends a piece nor is trimmed off one. -/
def Plain (ch : Char) : Prop := ch ≠ ',' ∧ Blank.isBlank ch = false

instance (ch : Char) : Decidable (Plain ch) := inferInstanceAs (Decidable (_ ∧ _))

theorem plain_digitChar : ∀ k < 16, Plain (Nat.digitChar k) := by
  decide

theorem plain_name (p : Parameter) : ∀ ch ∈ p.name.toList, Plain ch := by
  have hall : p.name.toList.all (fun ch => decide (Plain ch)) = true := by
    cases p <;> decide
  simpa using hall

theorem plain_numeral (c : Config) (p : Parameter) : ∀ ch ∈ c.numeral p, Plain ch := by
  have hdecimal : ∀ n, ∀ ch ∈ (Numeral.decimal n).toList, Plain ch := by
    intro n ch hch
    rw [Numeral.decimal, String.toList_ofList] at hch
    obtain ⟨k, hk, rfl⟩ := Numeral.mem_digits (by decide) hch
    exact plain_digitChar k (by omega)
  cases p with
  | load =>
      intro ch hch
      rcases List.mem_cons.mp hch with rfl | hch
      · decide
      · rcases List.mem_cons.mp hch with rfl | hch
        · decide
        · rw [Numeral.hex, String.toList_ofList] at hch
          obtain ⟨k, hk, rfl⟩ := Numeral.mem_padded (by decide) hch
          exact plain_digitChar k hk
  | _ => exact hdecimal _

theorem plain_written (c : Config) (p : Parameter) : ∀ ch ∈ c.written p, Plain ch := by
  intro ch hch
  rcases List.mem_append.mp hch with hch | hch
  · exact plain_name p ch hch
  · rcases List.mem_cons.mp hch with rfl | hch
    · decide
    · exact plain_numeral c p ch hch

theorem trim_of_plain {cs : List Char} (h : ∀ ch ∈ cs, Plain ch) : Blank.trim cs = cs := by
  have hkeep : ∀ ds : List Char, (∀ ch ∈ ds, Plain ch) → ds.dropWhile Blank.isBlank = ds := by
    intro ds hds
    cases ds with
    | nil => rfl
    | cons ch ds => exact List.dropWhile_cons_of_neg (by simp [(hds ch (.head _)).2])
  have hreverse : ∀ ch ∈ cs.reverse, Plain ch := fun ch hch => h ch (List.mem_reverse.mp hch)
  rw [Blank.trim, hkeep cs h, hkeep _ hreverse, List.reverse_reverse]

theorem gives_written (hsize : ∀ p, c.get p ≤ Numeral.wordMax) (p : Parameter) :
    Gives (c.written p) p (c.get p) := by
  have hsign : '=' ∉ p.name.toList := by
    cases p <;> decide
  refine ⟨p.name.toList, c.numeral p, trim_of_plain (plain_written c p), hsign,
    trim_of_plain (plain_name p), ?_, ?_⟩
  · rw [trim_of_plain (plain_numeral c p)]
    cases p with
    | load => exact Numeral.ofUser?_hex 1 (hsize .load)
    | _ => exact Numeral.ofUser?_decimal (hsize _)
  · rintro rfl
    exact Nat.le_of_lt_succ c.loadAddress.toNat_lt

theorem options_text (c : Config) : options c.text = parameters.map c.written := by
  have hcommas : ∀ piece ∈ parameters.map c.written, ',' ∉ piece := by
    intro piece hpiece hcomma
    obtain ⟨p, _, rfl⟩ := List.mem_map.mp hpiece
    exact (plain_written c p ',' hcomma).1 rfl
  have hpieces : c.text.toList.splitOn ',' = parameters.map c.written := by
    rw [toList_text]
    exact List.splitOn_intercalate ',' hcommas (by simp [parameters])
  rw [options, hpieces, nonblank, List.filter_eq_self]
  intro piece hpiece
  obtain ⟨p, _, rfl⟩ := List.mem_map.mp hpiece
  rw [trim_of_plain (plain_written c p)]
  simp [written]

/-- The text of a configuration describes it. -/
theorem describes_text (hsize : ∀ p, c.get p ≤ Numeral.wordMax) :
    Describes standard (options c.text) c := by
  rw [options_text]
  refine ⟨fun piece hpiece => ?_, ?_, fun piece hpiece p n hg => ?_, fun p hp => ?_⟩
  · obtain ⟨p, _, rfl⟩ := List.mem_map.mp hpiece
    exact ⟨p, _, gives_written hsize p⟩
  · have hdistinct : parameters.Pairwise (· ≠ ·) := by decide
    refine List.pairwise_map.mpr (hdistinct.imp ?_)
    rintro p q hne ⟨r, n, k, hp, hq⟩
    exact hne ((gives_written hsize p).unique hp |>.1.trans ((gives_written hsize q).unique hq).1.symm)
  · obtain ⟨q, _, rfl⟩ := List.mem_map.mp hpiece
    obtain ⟨rfl, rfl⟩ := (gives_written hsize q).unique hg
    rfl
  · exact absurd (gives_written hsize p) (hp _ (List.mem_map_of_mem (mem_parameters p)) _)

/-- The text of a shape that a machine can have is read as that shape. -/
theorem parse_text (hc : c.Possible) (hwidth : c.screenWidth ≤ Numeral.wordMax)
    (hheight : c.screenHeight ≤ Numeral.wordMax) : parse c.text = .ok c := by
  have hroom : c.memorySize ≤ Numeral.wordMax := Nat.le_trans hc.reach (by decide)
  have hload : c.loadAddress.toNat ≤ Numeral.wordMax :=
    Nat.le_trans (Nat.le_of_lt c.loadAddress.toNat_lt) (by decide)
  have hsize : ∀ p, c.get p ≤ Numeral.wordMax := by
    intro p
    cases p with
    | memory => exact hroom
    | width => exact hwidth
    | height => exact hheight
    | load => exact hload
  exact parse_eq_ok_iff.mpr ⟨describes_text hsize, hc⟩

/-- What can be said in a text are the shapes that a machine can have, with sides of 64 bits. -/
theorem exists_text_iff :
    (∃ text, parse text = .ok c) ↔
      c.Possible ∧ c.screenWidth ≤ Numeral.wordMax ∧ c.screenHeight ≤ Numeral.wordMax := by
  constructor
  · rintro ⟨text, hparse⟩
    obtain ⟨hdescribes, hpossible⟩ := parse_eq_ok_iff.mp hparse
    have hstandard : ∀ p, standard.get p ≤ Numeral.wordMax := by
      intro p
      cases p <;> decide
    exact ⟨hpossible, hdescribes.get_le (p := .width) (hstandard _),
      hdescribes.get_le (p := .height) (hstandard _)⟩
  · rintro ⟨hpossible, hwidth, hheight⟩
    exact ⟨c.text, parse_text hpossible hwidth hheight⟩

/-- **Texts of configurations.** A text is read as a configuration exactly if each of its options is
the name of a parameter with a number for it, no parameter is given twice, and the configuration with
these numbers and the standard ones elsewhere is a shape that a machine can have. It is that
configuration, whatever the order of the options. The text of every such configuration with sides of
64 bits is read as the configuration. -/
theorem parse_exact :
    (∀ text c, parse text = .ok c ↔ Describes standard (options text) c ∧ c.Possible) ∧
      (∀ text, (∀ piece ∈ options text, ∃ p n, Gives piece p n) →
        ((options text).Pairwise fun piece other =>
          ¬∃ p n k, Gives piece p n ∧ Gives other p k) →
        ∃ c, Describes standard (options text) c ∧
          ∀ d, Describes standard (options text) d → d = c) ∧
      (∀ text text', (options text).Perm (options text') →
        ∀ c, parse text = .ok c ↔ parse text' = .ok c) ∧
      ∀ c : Config, c.Possible → c.screenWidth ≤ Numeral.wordMax →
        c.screenHeight ≤ Numeral.wordMax → parse c.text = .ok c := by
  refine ⟨fun text c => parse_eq_ok_iff, fun text hwritten honce => ?_,
    fun text text' hperm c => ?_, fun c => parse_text⟩
  · obtain ⟨c, hd⟩ := exists_describes hwritten honce standard
    exact ⟨c, hd, fun d hd' => hd'.unique hd⟩
  · rw [parse_eq_ok_iff, parse_eq_ok_iff]
    exact and_congr_left fun _ => ⟨.perm hperm, .perm hperm.symm⟩

/-- A load address and a width, with blanks, a sign and an empty piece. -/
def spaced : String := " load = 0x300 ,, width=+128"

/-- The same options the other way round. -/
def swapped : String := " width=+128, load = 0x300 "

theorem parse_exact_spaced :
    (∃ c, Describes standard (options spaced) c ∧ c.Possible ∧ parse spaced = .ok c ∧
      parse swapped = .ok c ∧ parse c.text = .ok c ∧ c.screenWidth = 128) ∧
      ∃ c, Describes standard (options spaced) c ∧
        ∀ d, Describes standard (options spaced) d → d = c := by
  obtain ⟨hexact, hone, hperm, htext⟩ := parse_exact
  have hparse : parse spaced = .ok ⟨4096, 128, 32, 0x300⟩ := rfl
  have hswapped : (options spaced).Perm (options swapped) := by decide +kernel
  obtain ⟨hdescribes, hpossible⟩ := (hexact _ _).mp hparse
  exact ⟨⟨_, hdescribes, hpossible, hparse, (hperm _ _ hswapped _).mp hparse,
    htext _ hpossible (by decide) (by decide), rfl⟩, hone _ hdescribes.written hdescribes.once⟩

end Chip8.Config

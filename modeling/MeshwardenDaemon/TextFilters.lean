import Mathlib
import MeshwardenDaemon.Listings

/-! The text filters of the listings. The text of the caller goes into a pattern as it is,
and a `%` or `_` in it is a wildcard there. -/
namespace MeshwardenDaemon.TextFilters
open Library KeyedTable Paging Patterns ChannelTable ContactTable MessageTable PacketTable
  Listings

/-- Every character of the text stands for itself, up to ASCII case. -/
def Contains (text subject : String) : Prop := foldCase text <:+: foldCase subject

def StartsWith (text subject : String) : Prop := foldCase text <+: foldCase subject

instance (text subject : String) : Decidable (Contains text subject) :=
  inferInstanceAs (Decidable (foldCase text <:+: foldCase subject))

instance (text subject : String) : Decidable (StartsWith text subject) :=
  inferInstanceAs (Decidable (foldCase text <+: foldCase subject))

/-- No character of the text is a wildcard of LIKE. -/
def Plain (text : String) : Prop := ∀ c ∈ text.toList, c ≠ '%' ∧ c ≠ '_'

instance (text : String) : Decidable (Plain text) :=
  decidable_of_iff (text.toList.all fun c => c != '%' && c != '_') (by simp [Plain])

section like
variable {text subject : String}

theorem likeToken_run : likeToken '%' = .run := rfl

theorem map_likeToken (plain : Plain text) :
    text.toList.map likeToken = (foldCase text).map .lit := by
  simp only [foldCase, List.map_map, List.map_inj_left, Function.comp_apply]
  intro c hc
  rw [likeToken, if_neg (plain c hc).1, if_neg (plain c hc).2]

theorem like_contains (plain : Plain text) :
    like ("%" ++ text ++ "%") subject = true ↔ Contains text subject := by
  rw [Contains, ← accepts_infix, ← map_likeToken plain]
  simp [like, likeToken_run]

theorem like_startsWith (plain : Plain text) :
    like (text ++ "%") subject = true ↔ StartsWith text subject := by
  rw [StartsWith, ← accepts_prefix, ← map_likeToken plain]
  simp [like, likeToken_run]

theorem toLower_ne {c d : Char} (other : c ≠ d) (noLetter : d.isAlpha = false) :
    c.toLower ≠ d := by
  rintro rfl
  rw [Char.isAlpha_toLower_eq_isAlpha] at noLetter
  have upper : ¬ c.isUpper := by
    intro upper
    simp [Char.isAlpha, upper] at noLetter
  exact other (Char.toLower_eq_of_not_isUpper upper).symm

/-- The text with an `a` for every `_` and nothing for every `%`. -/
def filled (text : String) : String :=
  String.ofList (text.toList.flatMap fun c =>
    if c = '%' then [] else if c = '_' then ['a'] else [c])

theorem foldCase_filled (text : String) :
    foldCase (filled text) = (text.toList.map likeToken).flatMap (Token.fill 'a') := by
  simp only [foldCase, filled, String.toList_ofList, List.map_flatMap, List.flatMap_map]
  congr 1
  funext c
  unfold likeToken
  split_ifs <;> rfl

theorem like_filled (text : String) :
    like ("%" ++ text ++ "%") (filled text) = true ∧ like (text ++ "%") (filled text) = true := by
  have word := fill_mem_words 'a' (text.toList.map likeToken)
  rw [← foldCase_filled] at word
  have atStart := fill_mem_run word
  refine ⟨?_, ?_⟩
  · simp only [like, accepts_iff, String.toList_append]
    simpa [likeToken_run] using mem_words_cons.mpr ⟨[], mem_run _, _, atStart, rfl⟩
  · simp only [like, accepts_iff, String.toList_append]
    simpa [likeToken_run] using atStart

theorem plain_filled {d : Char} (text : String) (wildcard : d = '%' ∨ d = '_') :
    d ∉ foldCase (filled text) := by
  rw [foldCase_filled]
  simp only [List.mem_flatMap, List.mem_map]
  rintro ⟨_, ⟨c, -, rfl⟩, hd⟩
  unfold likeToken at hd
  split_ifs at hd with run one
  · simp [Token.fill] at hd
  · obtain rfl := List.mem_singleton.mp hd
    rcases wildcard with h | h <;> exact absurd h (by decide)
  · obtain rfl := List.mem_singleton.mp hd
    rcases wildcard with h | h
    · exact toLower_ne run rfl h
    · exact toLower_ne one rfl h

theorem mem_foldCase {d : Char} (hd : d ∈ text.toList) (wildcard : d = '%' ∨ d = '_') :
    d ∈ foldCase text := by
  refine List.mem_map.mpr ⟨d, hd, ?_⟩
  rcases wildcard with rfl | rfl <;> rfl

theorem not_contains (wild : ¬ Plain text) (free : ∀ d, d = '%' ∨ d = '_' → d ∉ foldCase subject) :
    ¬ Contains text subject ∧ ¬ StartsWith text subject := by
  have found : ∃ d ∈ text.toList, d = '%' ∨ d = '_' := by
    simp only [Plain, not_forall] at wild
    obtain ⟨d, hd, special⟩ := wild
    exact ⟨d, hd, by tauto⟩
  obtain ⟨d, hd, wildcard⟩ := found
  have here := mem_foldCase hd wildcard
  exact ⟨fun h => free d wildcard (h.subset here), fun h => free d wildcard (h.subset here)⟩

end like

def Named (q : String) (r : ContactRow) : Prop :=
  (∃ name ∈ r.advName, Contains q name) ∨ StartsWith q r.publicKey

instance (q : String) (r : ContactRow) : Decidable (Named q r) :=
  inferInstanceAs (Decidable ((∃ name ∈ r.advName, Contains q name) ∨ StartsWith q r.publicKey))

def OfPeer (p : String) (m : MessageRecord) : Prop := ∃ peer ∈ m.peer, StartsWith p peer

instance (p : String) (m : MessageRecord) : Decidable (OfPeer p m) :=
  inferInstanceAs (Decidable (∃ peer ∈ m.peer, StartsWith p peer))

/-- `list(query=q)` selects the contacts that the query names, in its pages and its total. -/
def SelectsNamed (t : Contacts) (q : String) : Prop :=
  ∀ (limit : ℤ) (sorted : Arrangement lastSeenFirst
      (t.rows.filter (ContactFilter.selects { query := q }))),
    (∀ offset, (ContactStore.list t { query := q } limit offset sorted).2 =
      (t.rows.filter fun r => Named q r).length) ∧
    ∀ r, (∃ offset, r ∈ (ContactStore.list t { query := q } limit offset sorted).1) ↔
      r ∈ t.rows ∧ Named q r

/-- `list(peer=p)` selects the messages of the peer, in its pages and its total. -/
def SelectsOfPeer (t : History) (channels : Channels) (p : String) : Prop :=
  ∀ (limit : ℤ) (sorted : Arrangement latestFirst (t.selected channels { peer := p })),
    (∀ offset, (MessageStore.list t channels { peer := p } limit offset sorted).2 =
      (t.rows.filter fun m => OfPeer p m).length) ∧
    ∀ m, (∃ offset, m ∈ (MessageStore.list t channels { peer := p } limit offset sorted).1.map
        ListedMessage.toMessageRecord) ↔ m ∈ t.rows ∧ OfPeer p m

section selection
variable {q : String}

theorem selectsNamed_iff {t : Contacts} : SelectsNamed t q ↔
    ∀ r ∈ t.rows, ContactFilter.selects { query := q } r = true ↔ Named q r := by
  refine ⟨fun exact r hr => ?_, fun agree limit sorted => ⟨fun _ => ?_, fun r => ?_⟩⟩
  · have pages := (exact 1 (lastSeenFirst_preorders.arrangement _)).2 r
    simp only [ContactStore.list, exists_mem_page _ (pageSize_pos 1), List.mem_filter] at pages
    simpa [hr] using pages
  · refine congrArg List.length (List.filter_congr fun r hr => ?_)
    rw [Bool.eq_iff_iff, decide_eq_true_eq]
    exact agree r hr
  · simp only [ContactStore.list, exists_mem_page _ (pageSize_pos limit), List.mem_filter]
    exact and_congr_right (agree r)

theorem selectsOfPeer_iff {t : History} {channels : Channels} : SelectsOfPeer t channels q ↔
    ∀ m ∈ t.rows, MessageFilter.selects { peer := q } m = true ↔ OfPeer q m := by
  have pages : ∀ limit sorted m,
      (∃ offset, m ∈ (MessageStore.list t channels { peer := q } limit offset sorted).1.map
        ListedMessage.toMessageRecord) ↔
        m ∈ t.rows ∧ MessageFilter.selects { peer := q } m = true := by
    intro limit sorted m
    simp only [MessageStore.list, List.mem_map]
    have rows : (∃ x ∈ t.selected channels { peer := q }, x.toMessageRecord = m) ↔
        m ∈ t.rows ∧ MessageFilter.selects { peer := q } m = true := by
      rw [selected_eq, ← List.mem_filter]
      refine ⟨?_, fun hm => ⟨m.listed channels, List.mem_map_of_mem hm, rfl⟩⟩
      rintro ⟨_, hx, rfl⟩
      obtain ⟨x, found, rfl⟩ := List.mem_map.mp hx
      exact found
    rw [← rows, exists_comm]
    simp only [exists_and_right, exists_mem_page _ (pageSize_pos limit)]
  refine ⟨fun exact m hm => ?_, fun agree limit sorted => ⟨fun _ => ?_, fun m => ?_⟩⟩
  · have listed := (exact 1 (latestFirst_preorders.arrangement _)).2 m
    rw [pages] at listed
    simpa [hm] using listed
  · refine congrArg List.length (List.filter_congr fun m hm => ?_)
    rw [Bool.eq_iff_iff, decide_eq_true_eq]
    exact agree m hm
  · rw [pages]
    exact and_congr_right (agree m)

theorem exists_contact (wild : ¬ Plain q) : ∃ r : ContactRow,
    ContactFilter.selects { query := q } r = true ∧ ¬ Named q r := by
  have free : ∀ d, d = '%' ∨ d = '_' → d ∉ foldCase (filled q) := fun _ => plain_filled q
  let contact : Contact := { publicKey := "", advName := some (filled q) }
  refine ⟨⟨contact, 0, 0, true⟩, by simp [ContactFilter.selects, contact, like_filled], ?_⟩
  rintro (⟨name, hname, contains⟩ | starts)
  · obtain rfl : filled q = name := Option.some.inj hname
    exact (not_contains wild free).1 contains
  · exact (not_contains wild (by simp [contact, foldCase])).2 starts

theorem exists_message (wild : ¬ Plain q) : ∃ m : MessageRecord,
    MessageFilter.selects { peer := q } m = true ∧ ¬ OfPeer q m := by
  have free : ∀ d, d = '%' ∨ d = '_' → d ∉ foldCase (filled q) := fun _ => plain_filled q
  let row : MessageRow := ⟨1, 0, .contact, none, none, none, none, "", 0⟩
  refine ⟨⟨row, .inbound, some (filled q), none, none, none, none, false, .device⟩,
    by simp [MessageFilter.selects, like_filled, inWindow], ?_⟩
  rintro ⟨peer, hpeer, starts⟩
  obtain rfl : filled q = peer := Option.some.inj hpeer
  exact (not_contains wild free).2 starts

variable (given : q ≠ "")
include given

theorem selects_contact (plain : Plain q) (r : ContactRow) :
    ContactFilter.selects { query := q } r = true ↔ Named q r := by
  simp only [ContactFilter.selects, Named, given, decide_false, Bool.false_or, Bool.not_false,
    Bool.true_or, Bool.and_true, Bool.or_eq_true, Option.any_eq_true, like_contains plain,
    like_startsWith plain, Option.mem_def]

theorem selects_message (plain : Plain q) (m : MessageRecord) :
    MessageFilter.selects { peer := q } m = true ↔ OfPeer q m := by
  simp only [MessageFilter.selects, OfPeer, given, decide_false, Bool.false_or, inWindow,
    Option.all_none, Bool.and_true, decide_true, Bool.true_or, Option.any_eq_true,
    like_startsWith plain, Option.mem_def]

end selection

/-- A text filter means what it says, whatever the table holds, exactly when the text has no
wildcard in it. -/
theorem text_filters_iff (q : String) (given : q ≠ "") :
    ((∀ t, SelectsNamed t q) ↔ Plain q) ∧
      ((∀ t channels, SelectsOfPeer t channels q) ↔ Plain q) := by
  refine ⟨⟨fun all => ?_, fun plain t => ?_⟩, ⟨fun all => ?_, fun plain t channels => ?_⟩⟩
  · by_contra wild
    obtain ⟨r, selected, other⟩ := exists_contact wild
    have exact := selectsNamed_iff.mp (all ⟨[r], List.pairwise_singleton _ _⟩)
    exact other ((exact r List.mem_cons_self).mp selected)
  · exact selectsNamed_iff.mpr fun r _ => selects_contact given plain r
  · by_contra wild
    obtain ⟨m, selected, other⟩ := exists_message wild
    have exact := selectsOfPeer_iff.mp (all ⟨[m], List.pairwise_singleton _ _⟩ .empty)
    exact other ((exact m List.mem_cons_self).mp selected)
  · exact selectsOfPeer_iff.mpr fun m _ => selects_message given plain m

theorem text_filters_iff_node : ((∀ t, SelectsNamed t "node") ↔ Plain "node") ∧
    ((∀ t channels, SelectsOfPeer t channels "node") ↔ Plain "node") ∧ Plain "node" :=
  ⟨(text_filters_iff "node" (by decide)).1, (text_filters_iff "node" (by decide)).2,
    by decide +kernel⟩

def hyphenated : Contacts where
  rows := [⟨{ publicKey := "a1b2", advName := some "node-1" }, 1, 1, true⟩]
  key_unique := List.pairwise_singleton _ _

/-- The query `node_1` selects it. -/
theorem underscore_selects_hyphen : ¬ SelectsNamed hyphenated "node_1" := by
  intro exact
  have only := (selectsNamed_iff.mp exact _ List.mem_cons_self).mp (by decide +kernel)
  exact absurd only (by decide +kernel)

end MeshwardenDaemon.TextFilters

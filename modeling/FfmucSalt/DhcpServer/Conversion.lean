import FfmucSalt.DhcpServer.Blocks
import Mathlib.Data.List.Forall2

/-!
# The conversion of a flat file

`parse` returns one subnet for each subnet block, and every host stands in the
first of them that contains its address.
-/

namespace FfmucSalt.DhcpServer.DhcpdConf

open Python

/-! ## The values of a host block -/

section Values

variable {gap value other blank rest otherRest : Str}

/-- The text begins with a character that is no white space. -/
def BeginsWord (text : Str) : Prop :=
  ∃ ch tail, text = ch :: tail ∧ isSpace ch = false

/-- It is clear where the texts end. -/
def Delimited (between : Str → Prop) : Prop :=
  ∀ {middle other rest otherRest : Str}, between middle → between other →
    BeginsWord rest → BeginsWord otherRest →
    middle ++ rest = other ++ otherRest → rest = otherRest

theorem IsWord.begins (isWord : IsWord value) : BeginsWord (value ++ rest) := by
  obtain ⟨nonempty, symbols⟩ := isWord
  match value, nonempty, symbols with
  | ch :: value, _, symbols =>
      exact ⟨ch, value ++ rest, rfl, (symbols ch List.mem_cons_self).1⟩

theorem takeWhile_gap (isGap : ∀ ch ∈ gap, isSpace ch)
    (begins : BeginsWord rest) : (gap ++ rest).takeWhile isSpace = gap := by
  obtain ⟨ch, tail, rfl, word⟩ := begins
  rw [List.takeWhile_append_of_pos isGap, List.takeWhile_cons_of_neg,
    List.append_nil]
  exact Bool.eq_false_iff.mp word

theorem delimited_gap : Delimited IsGap := by
  intro middle other rest otherRest isGap otherGap begins otherBegins same
  have gaps : middle = other := by
    rw [← takeWhile_gap isGap.2 begins, same,
      takeWhile_gap otherGap.2 otherBegins]
  exact List.append_cancel_left (gaps ▸ same)

theorem delimited_beforeMac : Delimited BeforeMac := by
  intro middle other rest otherRest isMiddle isOther begins otherBegins same
  obtain ⟨first, second, firstGap, secondGap, rfl⟩ := isMiddle
  obtain ⟨otherFirst, otherSecond, otherFirstGap, otherSecondGap, rfl⟩ :=
    isOther
  have ethernet : ∀ text, BeginsWord (chars "ethernet" ++ text) :=
    fun text => ⟨'e', chars "thernet" ++ text, rfl, by decide⟩
  simp only [List.append_assoc] at same
  have behind := delimited_gap firstGap otherFirstGap (ethernet _)
    (ethernet _) same
  exact delimited_gap secondGap otherSecondGap begins otherBegins
    (List.append_cancel_left behind)

/-- The symbols of a value -/
def isWordSymbol (ch : Char) : Bool := !isSpace ch && ch ≠ ';'

theorem takeWhile_word (isWord : IsWord value)
    (isBlank : ∀ ch ∈ blank, isSpace ch) :
    (value ++ (blank ++ ';' :: rest)).takeWhile isWordSymbol = value := by
  have symbols : ∀ ch ∈ value, isWordSymbol ch := by
    intro ch member
    obtain ⟨noSpace, noSemicolon, _⟩ := isWord.2 ch member
    simp [isWordSymbol, noSpace, noSemicolon]
  rw [List.takeWhile_append_of_pos symbols]
  cases blank with
  | nil =>
      rw [List.nil_append, List.takeWhile_cons_of_neg (by decide),
        List.append_nil]
  | cons ch blank =>
      have space := isBlank ch List.mem_cons_self
      rw [List.cons_append, List.takeWhile_cons_of_neg, List.append_nil]
      simp [isWordSymbol, space]

/-- A block that gives a value gives no other one. -/
theorem Gives.unique {keyword : Str} {between : Str → Prop} {body : Str}
    {front middle back : Str} (gives : Gives keyword between body value)
    (delimited : Delimited between)
    (split : body = front ++ keyword ++ middle ++ other ++ ';' :: back)
    (isMiddle : between middle) (isWord : IsWord other) : other = value := by
  obtain ⟨first, between', blank, behind, stands, isBetween, isBlank, alone⟩ :=
    gives.stands
  obtain rfl := alone front middle other back split isMiddle isWord
  rw [stands] at split
  simp only [List.append_assoc, List.append_cancel_left_eq] at split
  have values := delimited isBetween isMiddle gives.word.begins isWord.begins
    split
  have otherWord := @takeWhile_word other [] back isWord (by simp)
  rw [List.nil_append, ← values, takeWhile_word gives.word isBlank] at otherWord
  exact otherWord.symm

theorem isWord_of_class {accepts : Char → Bool} {run : Str}
    (outside : (';' :: '"' :: Python.spaces).all fun ch => !accepts ch)
    (enough : 1 ≤ run.length) (accepted : ∀ ch ∈ run, accepts ch) :
    IsWord run := by
  constructor
  · exact List.ne_nil_of_length_pos enough
  · intro ch member
    have isAccepted := accepted ch member
    have notOutside : ch ∉ ';' :: '"' :: Python.spaces := by
      intro isOutside
      have refused := List.all_eq_true.mp outside ch isOutside
      rw [isAccepted] at refused
      contradiction
    simp only [List.mem_cons, not_or] at notOutside
    obtain ⟨noSemicolon, noQuote, noSpace⟩ := notOutside
    exact ⟨Bool.eq_false_iff.mpr fun space =>
      noSpace (mem_spaces_of_isSpace space), noSemicolon, noQuote⟩

theorem isGap_of_run {run : Str} (enough : 1 ≤ run.length)
    (accepted : ∀ ch ∈ run, isSpace ch) : IsGap run :=
  ⟨List.ne_nil_of_length_pos enough, accepted⟩

end Values

theorem searchGroup_eq_some {regex : Regex} {index : Nat} {body value : Str}
    (found : searchGroup regex index body = some value) :
    ∃ before here match', body = before ++ here ∧
      Pattern.Reads regex here match' ∧
      match'.groups.getD (index - 1) [] = value := by
  obtain ⟨match', searched, rfl⟩ := Option.map_eq_some_iff.mp found
  obtain ⟨before, here, split, matched, _⟩ :=
    Pattern.search_eq_some_iff.mp searched
  exact ⟨before, here, match', split, Pattern.reads_of_matchAt matched, rfl⟩

theorem fixedAddress_eq {host : HostBlock} {ip : Str}
    (found : searchGroup fixedAddress 1 host.body = some ip) : ip = host.ip := by
  obtain ⟨before, here, match', split, reads, rfl⟩ := searchGroup_eq_some found
  obtain ⟨_, rfl, gap, _, rfl, wide, isGap, run, _, _, rfl, enough, accepted,
    ⟨back, rfl, rfl⟩, rfl⟩ := reads
  have stands : host.body =
      before ++ chars "fixed-address" ++ gap ++ run ++ ';' :: back := by
    rw [split]
    simp only [List.append_assoc]
    rfl
  exact host.givesAddress.unique delimited_gap stands (isGap_of_run wide isGap)
    (isWord_of_class (by decide) enough accepted)

theorem hardwareEthernet_eq {host : HostBlock} {mac : Str}
    (found : searchGroup hardwareEthernet 1 host.body = some mac) :
    mac = host.mac := by
  obtain ⟨before, here, match', split, reads, rfl⟩ := searchGroup_eq_some found
  obtain ⟨_, rfl, first, _, rfl, firstWide, firstGap, _, rfl, second, _, rfl,
    secondWide, secondGap, run, _, _, rfl, enough, accepted, ⟨back, rfl, rfl⟩,
    rfl⟩ := reads
  have stands : host.body = before ++ chars "hardware" ++
      (first ++ chars "ethernet" ++ second) ++ run ++ ';' :: back := by
    rw [split]
    simp only [List.append_assoc]
    rfl
  have isMiddle : BeforeMac (first ++ chars "ethernet" ++ second) :=
    ⟨first, second, isGap_of_run firstWide firstGap,
      isGap_of_run secondWide secondGap, rfl⟩
  exact host.givesMac.unique delimited_beforeMac stands isMiddle
    (isWord_of_class (by decide) enough accepted)

/-! ## Reading the blocks -/

/-- The network of a subnet block -/
def SubnetBlock.network? (subnet : SubnetBlock) : Option Network :=
  ipNetwork (subnet.address ++ '/' :: subnet.mask)

/-- The subnet has the network of the block. -/
def IsSubnet (subnet : SubnetBlock) (sub : Subnet) : Prop :=
  ∃ network, subnet.network? = some network ∧ sub.subnet = network.str

/-- The reservation says what the host block says. -/
structure Reserves (host : HostBlock) (res : Reservation) : Prop where
  ip : res.ip = host.ip
  mac : res.mac = host.mac.map Char.toLower
  hostname : res.hostname =
    (searchGroup hostName 1 host.body).getD host.name

section Reading

variable {subnet : SubnetBlock} {host : HostBlock} {reading next : Reading}

theorem parseSubnet_eq_ok {sub : Subnet} {times : List (LeaseKey × Nat)}
    (parsed : parseSubnet (words subnet.header) subnet.body =
      .ok (sub, times)) : IsSubnet subnet sub ∧ sub.reservations = [] := by
  rw [parseSubnet, subnet.words_header] at parsed
  obtain ⟨address, isAddress, parsed⟩ := bind_eq_ok.mp parsed
  obtain ⟨mask, isMask, parsed⟩ := bind_eq_ok.mp parsed
  obtain ⟨network, isNetwork, parsed⟩ := bind_eq_ok.mp parsed
  obtain ⟨pool, _, parsed⟩ := bind_eq_ok.mp parsed
  obtain ⟨defaults, _, parsed⟩ := bind_eq_ok.mp parsed
  obtain ⟨maxima, _, parsed⟩ := bind_eq_ok.mp parsed
  obtain ⟨rfl, _⟩ := Prod.mk.inj (Except.ok.inj parsed)
  obtain rfl := Except.ok.inj isAddress
  obtain rfl := Except.ok.inj isMask
  exact ⟨⟨network, orAbort_eq_ok.mp isNetwork, rfl⟩, rfl⟩

theorem parseHost_eq_ok {res : Reservation}
    (parsed : parseHost (words host.header) host.body = .ok res) :
    Reserves host res := by
  rw [parseHost, host.words_header] at parsed
  obtain ⟨mac, isMac, parsed⟩ := bind_eq_ok.mp parsed
  obtain ⟨ip, isIp, parsed⟩ := bind_eq_ok.mp parsed
  have isIp := fixedAddress_eq (orAbort_eq_ok.mp isIp)
  have isMac := hardwareEthernet_eq (orAbort_eq_ok.mp isMac)
  split at parsed
  case h_1 name given =>
    obtain rfl := Except.ok.inj parsed
    exact
      { ip := isIp
        mac := by rw [isMac]
        hostname := by rw [given, Option.getD_some] }
  case h_2 none =>
    obtain rfl := Except.ok.inj parsed
    exact
      { ip := isIp
        mac := by rw [isMac]
        hostname := by rw [none, Option.getD_none] }

theorem readBlock_subnet
    (read : readBlock reading (strip subnet.header, subnet.body) = .ok next) :
    ∃ sub, IsSubnet subnet sub ∧ sub.reservations = [] ∧
      next.subnets = reading.subnets ++ [sub] ∧ next.hosts = reading.hosts := by
  have first : (words subnet.header).take 1 = [chars "subnet"] := by
    rw [subnet.words_header]
    rfl
  rw [readBlock] at read
  dsimp only at read
  rw [words_strip, if_pos first] at read
  obtain ⟨⟨sub, times⟩, parsed, read⟩ := bind_eq_ok.mp read
  obtain rfl := Except.ok.inj read
  obtain ⟨isSubnet, none⟩ := parseSubnet_eq_ok parsed
  exact ⟨sub, isSubnet, none, rfl, rfl⟩

theorem readBlock_host
    (read : readBlock reading (strip host.header, host.body) = .ok next) :
    ∃ res, Reserves host res ∧ next.subnets = reading.subnets ∧
      next.hosts = reading.hosts ++ [res] := by
  have first : (words host.header).take 1 = [chars "host"] := by
    rw [host.words_header]
    rfl
  rw [readBlock] at read
  dsimp only at read
  rw [words_strip, if_neg (by rw [first]; decide), if_pos first] at read
  obtain ⟨res, parsed, read⟩ := bind_eq_ok.mp read
  obtain rfl := Except.ok.inj read
  exact ⟨res, parseHost_eq_ok parsed, rfl, rfl⟩

/-- One subnet for each subnet block, one reservation for each host block. -/
theorem foldlM_readBlock {items : List Item}
    (read : (items.filterMap Item.block?).foldlM readBlock reading =
      .ok next) :
    ∃ subnets hosts, next.subnets = reading.subnets ++ subnets ∧
      next.hosts = reading.hosts ++ hosts ∧
      List.Forall₂ IsSubnet (items.filterMap Item.subnet?) subnets ∧
      (∀ sub ∈ subnets, sub.reservations = []) ∧
      List.Forall₂ Reserves (items.filterMap Item.host?) hosts := by
  induction items generalizing reading with
  | nil =>
      obtain rfl := Except.ok.inj read
      exact ⟨[], [], by simp, by simp, .nil, by simp, .nil⟩
  | cons item items induction =>
      cases item with
      | statement statement => exact induction read
      | subnet subnet =>
          obtain ⟨middle, first, rest⟩ := bind_eq_ok.mp read
          obtain ⟨sub, isSubnet, none, addSubnet, sameHosts⟩ :=
            readBlock_subnet first
          obtain ⟨subnets, hosts, subnetsEq, hostsEq, areSubnets, fresh,
            reserve⟩ := induction rest
          refine ⟨sub :: subnets, hosts, ?_, ?_, .cons isSubnet areSubnets,
            List.forall_mem_cons.mpr ⟨none, fresh⟩, reserve⟩
          · rw [subnetsEq, addSubnet, List.append_assoc, List.singleton_append]
          · rw [hostsEq, sameHosts]
      | host host =>
          obtain ⟨middle, first, rest⟩ := bind_eq_ok.mp read
          obtain ⟨res, reserves, sameSubnets, addHost⟩ := readBlock_host first
          obtain ⟨subnets, hosts, subnetsEq, hostsEq, areSubnets, fresh,
            reserve⟩ := induction rest
          refine ⟨subnets, res :: hosts, ?_, ?_, areSubnets, fresh,
            .cons reserves reserve⟩
          · rw [subnetsEq, sameSubnets]
          · rw [hostsEq, addHost, List.append_assoc, List.singleton_append]

end Reading

/-! ## Placing the reservations -/

/-- Whether a subnet of the result contains an address -/
def Subnet.has (ip : Str) (sub : Subnet) : Bool :=
  match ipNetwork sub.subnet, ipAddress ip with
  | some network, some address => network.contains address
  | _, _ => false

def Subnet.add (added : List Reservation) (sub : Subnet) : Subnet :=
  { sub with reservations := sub.reservations ++ added }

/-- The index of the first subnet with the address -/
def place (subs : List Subnet) (res : Reservation) : Option Nat :=
  subs.findIdx? (Subnet.has res.ip)

section Placing

variable {res : Reservation} {subs next : List Subnet}

theorem reserve_eq_ok (reserved : reserve res subs = .ok next) :
    ∃ index, place subs res = some index ∧
      next = subs.modify index (Subnet.add [res]) := by
  induction subs generalizing next with
  | nil => contradiction
  | cons sub subs induction =>
      rw [reserve] at reserved
      obtain ⟨address, isAddress, reserved⟩ := bind_eq_ok.mp reserved
      obtain ⟨network, isNetwork, reserved⟩ := bind_eq_ok.mp reserved
      have isHas : sub.has res.ip = network.contains address := by
        rw [Subnet.has, orAbort_eq_ok.mp isAddress,
          orAbort_eq_ok.mp isNetwork]
      split at reserved
      case isTrue contains =>
        obtain rfl := Except.ok.inj reserved
        refine ⟨0, ?_, rfl⟩
        rw [place, List.findIdx?_cons, isHas, if_pos contains]
      case isFalse other =>
        obtain ⟨others, inOthers, reserved⟩ := bind_eq_ok.mp reserved
        obtain rfl := Except.ok.inj reserved
        obtain ⟨index, isPlace, rfl⟩ := induction inOthers
        refine ⟨index + 1, ?_, rfl⟩
        rw [place] at isPlace
        rw [place, List.findIdx?_cons, isHas, if_neg other, isPlace]
        rfl

/-- Adding reservations moves no address to another subnet. -/
theorem place_modify (index : Nat) (added : List Reservation) :
    place (subs.modify index (Subnet.add added)) res = place subs res := by
  have same : ∀ subs : List Subnet, place subs res =
      (subs.map Subnet.subnet).findIdx? fun subnet =>
        match ipNetwork subnet, ipAddress res.ip with
        | some network, some address => network.contains address
        | _, _ => false := by
    intro subs
    rw [List.findIdx?_map]
    rfl
  have kept : (subs.modify index (Subnet.add added)).map Subnet.subnet =
      subs.map Subnet.subnet := by
    apply List.ext_getElem?
    intro position
    rw [List.getElem?_map, List.getElem?_map, List.getElem?_modify]
    split <;> cases subs[position]? <;> rfl
  rw [same, same, kept]

/-- Every reservation comes to its place, in the order of the file. -/
theorem foldlM_reserve {hosts : List Reservation}
    (reserved : hosts.foldlM (fun subs res => reserve res subs) subs =
      .ok next) :
    (∀ res ∈ hosts, ∃ index, place subs res = some index) ∧
    ∀ index, next[index]? = subs[index]?.map
      (Subnet.add (hosts.filter fun res => place subs res = some index)) := by
  induction hosts generalizing subs with
  | nil =>
      obtain rfl := Except.ok.inj reserved
      refine ⟨by simp, fun index => ?_⟩
      cases subs[index]? <;> simp [Subnet.add]
  | cons res hosts induction =>
      obtain ⟨middle, first, rest⟩ := bind_eq_ok.mp reserved
      obtain ⟨own, isPlace, rfl⟩ := reserve_eq_ok first
      obtain ⟨placed, result⟩ := induction rest
      simp only [place_modify] at placed result
      refine ⟨List.forall_mem_cons.mpr ⟨⟨own, isPlace⟩, placed⟩,
        fun index => ?_⟩
      rw [result, List.getElem?_modify, List.filter_cons, isPlace]
      by_cases here : own = index
      · subst here
        cases subs[own]? <;> simp [Subnet.add]
      · have elsewhere : ¬ some own = some index := by simpa using here
        simp [here]

end Placing

/-! ## The result -/

/-- Whether a subnet block contains an address -/
def SubnetBlock.has (ip : Str) (subnet : SubnetBlock) : Bool :=
  match subnet.network?, ipAddress ip with
  | some network, some address => network.contains address
  | _, _ => false

/-- The index of the first listed subnet block with the address -/
def FlatFile.firstSubnet (file : FlatFile) (ip : Str) : Option Nat :=
  file.subnets.findIdx? (SubnetBlock.has ip)

/-- What a file becomes when `parse` returns. -/
structure Converts (file : FlatFile) (context : Context) : Prop where
  subnets : List.Forall₂ IsSubnet file.subnets context.subnets
  placed : ∀ host ∈ file.hosts, ∃ index, file.firstSubnet host.ip = some index
  /-- Each subnet has the hosts whose first subnet it is, and no other. -/
  reservations : ∀ index sub, context.subnets[index]? = some sub →
    List.Forall₂ Reserves
      (file.hosts.filter fun host => file.firstSubnet host.ip = some index)
      sub.reservations

theorem place_eq_firstSubnet {blocks : List SubnetBlock} {subs : List Subnet}
    {host : HostBlock} {res : Reservation}
    (areSubnets : List.Forall₂ IsSubnet blocks subs)
    (reserves : Reserves host res) :
    place subs res = blocks.findIdx? (SubnetBlock.has host.ip) := by
  rw [place, reserves.ip]
  induction areSubnets with
  | nil => rfl
  | @cons block sub blocks subs isSubnet areSubnets induction =>
      obtain ⟨network, isNetwork, isText⟩ := isSubnet
      have same : sub.has host.ip = block.has host.ip := by
        rw [Subnet.has, SubnetBlock.has, isText, ipNetwork_str, isNetwork]
      rw [List.findIdx?_cons, List.findIdx?_cons, same, induction]

theorem forall₂_filter {α β : Type} {relation : α → β → Prop}
    {first : α → Bool} {second : β → Bool} {left : List α} {right : List β}
    (related : List.Forall₂ relation left right)
    (agree : ∀ one other, relation one other → first one = second other) :
    List.Forall₂ relation (left.filter first) (right.filter second) := by
  induction related with
  | nil => exact .nil
  | @cons one other left right here _ induction =>
      rw [List.filter_cons, List.filter_cons, agree one other here]
      cases second other with
      | true => exact .cons here induction
      | false => exact induction

section Result

variable {raw : Str} {interfaces : List Str} {validLifetime : Option Nat}
  {file : FlatFile} {context : Context}

theorem converts_of_parse (isFile : uncommented raw = file.text)
    (returned : parse raw interfaces validLifetime = .ok context) :
    Converts file context := by
  obtain ⟨reading, parsed⟩ := parse_eq_ok returned
  have read := parsed.read
  rw [isFile, blocks_text] at read
  obtain ⟨subnets, hosts, isSubnets, isHosts, areSubnets, fresh, reserve⟩ :=
    foldlM_readBlock read
  rw [List.nil_append] at isSubnets isHosts
  have reserved := parsed.reserved
  rw [isSubnets, isHosts] at reserved
  obtain ⟨placed, result⟩ := foldlM_reserve reserved
  have places : ∀ host res, Reserves host res →
      place subnets res = file.firstSubnet host.ip :=
    fun host res reserves => place_eq_firstSubnet areSubnets reserves
  have total : context.subnets.length = subnets.length := by
    apply Nat.le_antisymm
    · apply List.getElem?_eq_none_iff.mp
      rw [result, List.getElem?_eq_none (Nat.le_refl _)]
      rfl
    · apply List.getElem?_eq_none_iff.mp
      have none := result context.subnets.length
      rw [List.getElem?_eq_none (Nat.le_refl _)] at none
      exact Option.map_eq_none_iff.mp none.symm
  constructor
  case subnets =>
    apply List.forall₂_iff_get.mpr
    refine ⟨areSubnets.length_eq.trans total.symm, fun index inBlocks inResult => ?_⟩
    have inSubnets : index < subnets.length := total ▸ inResult
    have isSubnet := (List.forall₂_iff_get.mp areSubnets).2 index inBlocks
      inSubnets
    have isResult := result index
    rw [List.getElem?_eq_getElem inResult, List.getElem?_eq_getElem inSubnets,
      Option.map_some, Option.some_inj] at isResult
    rw [List.get_eq_getElem, List.get_eq_getElem, isResult]
    exact isSubnet
  case placed =>
    intro host member
    obtain ⟨position, inHosts, rfl⟩ := List.getElem_of_mem member
    have inReservations : position < hosts.length :=
      reserve.length_eq ▸ inHosts
    have reserves := (List.forall₂_iff_get.mp reserve).2 position inHosts
      inReservations
    obtain ⟨index, isPlace⟩ := placed _ (List.getElem_mem inReservations)
    exact ⟨index, (places _ _ reserves).symm.trans isPlace⟩
  case reservations =>
    intro index sub isSub
    rw [result, Option.map_eq_some_iff] at isSub
    obtain ⟨start, isStart, rfl⟩ := isSub
    have none := fresh start (List.mem_of_getElem? isStart)
    rw [Subnet.add, none, List.nil_append]
    apply forall₂_filter reserve
    intro host res reserves
    rw [places host res reserves]

/-- The conversion loses no subnet and no reservation. -/
theorem parse_conserves (isFile : uncommented raw = file.text) :
    blocks (uncommented raw) = file.blocks ∧
    ((∃ host ∈ file.hosts, file.firstSubnet host.ip = none) →
      ∃ abort, parse raw interfaces validLifetime = .error abort) ∧
    ∀ context, parse raw interfaces validLifetime = .ok context →
      Converts file context := by
  refine ⟨by rw [isFile, blocks_text], ?_,
    fun context returned => converts_of_parse isFile returned⟩
  intro ⟨host, member, nowhere⟩
  match returned : parse raw interfaces validLifetime with
  | .error abort => exact ⟨abort, rfl⟩
  | .ok context =>
      obtain ⟨index, placed⟩ := (converts_of_parse isFile returned).placed host
        member
      rw [nowhere] at placed
      contradiction

end Result

/-! ## A file with hosts before and behind their subnets -/

theorem gives_of_alone {keyword value : Str} {between : Str → Prop}
    {front middle blank back : Str} (word : IsWord value)
    (isBetween : between middle) (isBlank : ∀ ch ∈ blank, isSpace ch)
    (alone : ∀ length ≤
      (front ++ keyword ++ middle ++ value ++ blank ++ ';' :: back).length,
      keyword <+:
        (front ++ keyword ++ middle ++ value ++ blank ++ ';' :: back).drop
          length → length = front.length) :
    Gives keyword between
      (front ++ keyword ++ middle ++ value ++ blank ++ ';' :: back) value := by
  refine ⟨word, front, middle, blank, back, rfl, isBetween, isBlank, ?_⟩
  intro other otherMiddle otherValue otherBack split _ _
  have fits : other.length ≤
      (front ++ keyword ++ middle ++ value ++ blank ++ ';' :: back).length := by
    rw [split]
    simp only [List.length_append]
    omega
  have starts : keyword <+:
      (front ++ keyword ++ middle ++ value ++ blank ++ ';' :: back).drop
        other.length := by
    rw [split]
    simp only [List.append_assoc, List.drop_left]
    exact List.prefix_append _ _
  have same := alone other.length fits starts
  simp only [List.append_assoc] at split
  exact (List.append_inj_left split same.symm).symm

namespace Sample

instance (gap : Str) : Decidable (IsGap gap) :=
  decidable_of_iff (gap ≠ [] ∧ gap.all isSpace) (by
    rw [IsGap, List.all_eq_true])

instance (word : Str) : Decidable (IsWord word) :=
  decidable_of_iff (word ≠ [] ∧
      word.all fun ch => !isSpace ch && ch ≠ ';' && ch ≠ '"') (by
    simp only [IsWord, List.all_eq_true, Bool.and_eq_true, Bool.not_eq_true',
      decide_eq_true_eq, and_assoc])

def hostBody (mac ip : String) : Str :=
  chars " hardware ethernet " ++ chars mac ++ chars "; fixed-address " ++
    chars ip ++ chars "; "

theorem givesMac_hostBody {mac ip : String} (isWord : IsWord (chars mac))
    (alone : ∀ length ≤ (hostBody mac ip).length,
      chars "hardware" <+: (hostBody mac ip).drop length → length = 1) :
    GivesMac (hostBody mac ip) (chars mac) := by
  have isMiddle : BeforeMac (chars " ethernet ") :=
    ⟨[' '], [' '], by decide, by decide, by decide⟩
  have split : hostBody mac ip = [' '] ++ chars "hardware" ++
      chars " ethernet " ++ chars mac ++ [] ++
        ';' :: (chars " fixed-address " ++ chars ip ++ chars "; ") := by
    simp only [hostBody, List.append_assoc]
    rfl
  rw [split] at alone ⊢
  exact gives_of_alone isWord isMiddle (by simp) alone

theorem givesAddress_hostBody {mac ip : String} (isWord : IsWord (chars ip))
    (alone : ∀ length ≤ (hostBody mac ip).length,
      chars "fixed-address" <+: (hostBody mac ip).drop length →
        length = (chars " hardware ethernet " ++ chars mac ++
          chars "; ").length) :
    GivesAddress (hostBody mac ip) (chars ip) := by
  have split : hostBody mac ip = (chars " hardware ethernet " ++ chars mac ++
      chars "; ") ++ chars "fixed-address" ++ [' '] ++ chars ip ++ [] ++
        ';' :: [' '] := by
    simp only [hostBody, List.append_assoc]
    rfl
  rw [split] at alone ⊢
  exact gives_of_alone isWord (by decide) (by simp) alone

def early : HostBlock :=
  { header := chars "\nhost early "
    body := hostBody "02:00:00:00:00:AA" "192.0.2.40"
    name := chars "early"
    mac := chars "02:00:00:00:00:AA"
    ip := chars "192.0.2.40"
    plain := by decide
    words_header := by decide
    free := by decide
    givesMac := givesMac_hostBody (by decide) (by decide)
    givesAddress :=
      givesAddress_hostBody (by decide) (by decide) }

def late : HostBlock :=
  { header := chars "\nhost late "
    body := hostBody "02:00:00:00:00:02" "198.51.100.7"
    name := chars "late"
    mac := chars "02:00:00:00:00:02"
    ip := chars "198.51.100.7"
    plain := by decide
    words_header := by decide
    free := by decide
    givesMac := givesMac_hostBody (by decide) (by decide)
    givesAddress :=
      givesAddress_hostBody (by decide) (by decide) }

def subnetBlock (address mask range : String)
    (words_header : words (chars "\nsubnet " ++ chars address ++
      chars " netmask " ++ chars mask) =
        [chars "subnet", chars address, chars "netmask", chars mask])
    (plain : Plain (chars "\nsubnet " ++ chars address ++
      chars " netmask " ++ chars mask))
    (noScope : '%' ∉ chars address)
    (free : braces.Free (chars " range " ++ chars range ++ [';'])) :
    SubnetBlock :=
  { header := chars "\nsubnet " ++ chars address ++ chars " netmask " ++
      chars mask
    body := chars "pool " ++
      '{' :: ((chars " range " ++ chars range ++ [';']) ++ '}' :: ['\n'])
    address := chars address
    mask := chars mask
    plain
    words_header
    noScope
    onePool := ⟨chars "pool ", chars " range " ++ chars range ++ [';'], ['\n'],
      rfl, by decide, free, by decide⟩ }

def file : FlatFile :=
  { items :=
      [.statement { text := chars "\nauthoritative", plain := by decide },
        .host early,
        .subnet (subnetBlock "192.0.2.32" "255.255.255.224"
          "192.0.2.55 192.0.2.61" (by decide) (by decide)
          (by decide) (by decide)),
        .subnet (subnetBlock "198.51.100.0" "255.255.255.0"
          "198.51.100.10 198.51.100.99" (by decide) (by decide)
          (by decide) (by decide)),
        .host late]
    rest := ['\n']
    free := by decide }

/-- The same file with a comment -/
def raw : Str := chars "# Guardian; \x7b" ++ file.text

theorem parse_conserves_sample :
    (parse raw [chars "eth0"] none).toOption.isSome ∧
    blocks (uncommented raw) = file.blocks ∧
    ((∃ host ∈ file.hosts, file.firstSubnet host.ip = none) →
      ∃ abort, parse raw [chars "eth0"] none = .error abort) ∧
    ∀ context, parse raw [chars "eth0"] none = .ok context →
      Converts file context :=
  ⟨by decide +kernel, parse_conserves (by decide +kernel)⟩

end Sample

end FfmucSalt.DhcpServer.DhcpdConf

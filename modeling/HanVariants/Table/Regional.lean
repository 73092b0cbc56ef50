import HanVariants.Text.Basic
/-!
# Words of the regions

Words that differ between the regions beyond the script. A source is listed in both scripts where
they differ, so that a word is found whether or not its characters have been converted. Macau shares
the words of Hong Kong, and Singapore and Malaysia those of the mainland.
-/

namespace HanVariants.Table

def taiwanWords : List (String × String) :=
  [
    ("软件", "軟體"),
    ("軟件", "軟體"),
    ("硬件", "硬體"),
    ("网络", "網路"),
    ("網絡", "網路"),
    ("信息", "資訊"),
    ("出租车", "計程車"),
    ("出租車", "計程車"),
    ("鼠标", "滑鼠"),
    ("鼠標", "滑鼠"),
    ("打印机", "印表機"),
    ("打印機", "印表機"),
    ("内存", "記憶體"),
    ("內存", "記憶體"),
    ("激光", "雷射"),
    ("自行车", "腳踏車"),
    ("自行車", "腳踏車"),
    ("新西兰", "紐西蘭"),
    ("新西蘭", "紐西蘭"),
    ("阿拉伯联合酋长国", "阿拉伯聯合大公國"),
    ("阿拉伯聯合酋長國", "阿拉伯聯合大公國")
  ]

def hongKongWords : List (String × String) :=
  [
    ("软件", "軟件"),
    ("軟體", "軟件"),
    ("网络", "網絡"),
    ("網路", "網絡"),
    ("出租车", "的士"),
    ("出租車", "的士"),
    ("計程車", "的士"),
    ("计程车", "的士"),
    ("自行车", "單車"),
    ("自行車", "單車"),
    ("腳踏車", "單車"),
    ("打印机", "打印機"),
    ("印表機", "打印機"),
    ("纽西兰", "新西蘭"),
    ("紐西蘭", "新西蘭")
  ]

def mainlandWords : List (String × String) :=
  [
    ("軟體", "软件"),
    ("软体", "软件"),
    ("硬體", "硬件"),
    ("硬体", "硬件"),
    ("計程車", "出租车"),
    ("计程车", "出租车"),
    ("滑鼠", "鼠标"),
    ("印表機", "打印机"),
    ("印表机", "打印机"),
    ("記憶體", "内存"),
    ("记忆体", "内存"),
    ("雷射", "激光"),
    ("腳踏車", "自行车"),
    ("脚踏车", "自行车"),
    ("紐西蘭", "新西兰"),
    ("纽西兰", "新西兰"),
    ("阿拉伯聯合大公國", "阿拉伯联合酋长国"),
    ("阿拉伯联合大公国", "阿拉伯联合酋长国")
  ]

end HanVariants.Table

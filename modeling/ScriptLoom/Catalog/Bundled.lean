import ScriptLoom.Catalog.Mining

/-!
# The bundled library

The automation library that scripts use unless another one is given.
-/

namespace ScriptLoom

/-- The lines of the bundled library. -/
def bundledLines : List String :=
  ["import java.awt.AWTException;",
   "import java.awt.MouseInfo;",
   "import java.awt.Robot;",
   "import java.awt.Toolkit;",
   "import java.awt.datatransfer.DataFlavor;",
   "import java.awt.datatransfer.StringSelection;",
   "import java.awt.event.InputEvent;",
   "import java.awt.event.KeyEvent;",
   "import java.io.BufferedReader;",
   "import java.io.File;",
   "import java.io.FileReader;",
   "import java.io.FileWriter;",
   "import java.io.IOException;",
   "import java.text.SimpleDateFormat;",
   "import java.util.ArrayDeque;",
   "import java.util.Date;",
   "import java.util.Deque;",
   "import java.util.Random;",
   "import javax.swing.JOptionPane;",
   "",
   "public class Automation \x7b",
   "    public final String FILE_SEP = File.separator;",
   "    public final String TIME_FORMAT = \"HH:mm:ss\";",
   "    private int clickDelay = 10;",
   "    private Random generator = new Random();",
   "",
   "    private Robot robot() \x7b",
   "        try \x7b",
   "            return new Robot();",
   "        \x7d catch (AWTException e) \x7b",
   "            throw new RuntimeException(e);",
   "        \x7d",
   "    \x7d",
   "",
   "    public void sleep(int milliseconds) \x7b",
   "        try \x7b",
   "            Thread.sleep(milliseconds);",
   "        \x7d catch (InterruptedException e) \x7b",
   "            Thread.currentThread().interrupt();",
   "        \x7d",
   "    \x7d",
   "",
   "    /* ---- mouse ---- */",
   "",
   "    private int buttonMask(String button) \x7b",
   "        if (button.equals(\"right\")) \x7b",
   "            return InputEvent.BUTTON3_DOWN_MASK;",
   "        \x7d else if (button.equals(\"middle\")) \x7b",
   "            return InputEvent.BUTTON2_DOWN_MASK;",
   "        \x7d",
   "        return InputEvent.BUTTON1_DOWN_MASK;",
   "    \x7d",
   "",
   "    public void mouseMove(int x, int y) \x7b",
   "        robot().mouseMove(x, y);",
   "    \x7d",
   "",
   "    public void mouseDown(String button) \x7b",
   "        robot().mousePress(buttonMask(button));",
   "    \x7d",
   "",
   "    public void mouseUp(String button) \x7b",
   "        robot().mouseRelease(buttonMask(button));",
   "    \x7d",
   "",
   "    public void mouseClick(String button) \x7b",
   "        mouseDown(button);",
   "        sleep(clickDelay);",
   "        mouseUp(button);",
   "    \x7d",
   "",
   "    public void mouseClick(String button, int x, int y) \x7b",
   "        mouseMove(x, y);",
   "        mouseClick(button);",
   "    \x7d",
   "",
   "    public void mouseClickDrag(String button, int x1, int y1, int x2, int y2) \x7b",
   "        mouseMove(x1, y1);",
   "        mouseDown(button);",
   "        mouseMove(x2, y2);",
   "        mouseUp(button);",
   "    \x7d",
   "",
   "    public void mouseScrollUp() \x7b",
   "        robot().mouseWheel(-1);",
   "    \x7d",
   "",
   "    public void mouseScrollDown() \x7b",
   "        robot().mouseWheel(1);",
   "    \x7d",
   "",
   "    public int getMouseX() \x7b",
   "        return MouseInfo.getPointerInfo().getLocation().x;",
   "    \x7d",
   "",
   "    public int getMouseY() \x7b",
   "        return MouseInfo.getPointerInfo().getLocation().y;",
   "    \x7d",
   "",
   "    public int pixelGetColor(int x, int y) \x7b",
   "        return robot().getPixelColor(x, y).getRGB();",
   "    \x7d",
   "",
   "    public int getScreenWidth() \x7b",
   "        return Toolkit.getDefaultToolkit().getScreenSize().width;",
   "    \x7d",
   "",
   "    public int getScreenHeight() \x7b",
   "        return Toolkit.getDefaultToolkit().getScreenSize().height;",
   "    \x7d",
   "",
   "    /* ---- keyboard ---- */",
   "",
   "    public void keyDown(int code) \x7b",
   "        robot().keyPress(code);",
   "    \x7d",
   "",
   "    public void keyUp(int code) \x7b",
   "        robot().keyRelease(code);",
   "    \x7d",
   "",
   "    public void keyPress(int code) \x7b",
   "        keyDown(code);",
   "        keyUp(code);",
   "    \x7d",
   "",
   "    // press every key in order, then release them in reverse order",
   "    public void keyCombo(int... codes) \x7b",
   "        Deque<Integer> held = new ArrayDeque<Integer>();",
   "        for (int code : codes) \x7b",
   "            keyDown(code);",
   "            held.push(code);",
   "        \x7d",
   "        while (!held.isEmpty()) \x7b",
   "            keyUp(held.pop());",
   "        \x7d",
   "    \x7d",
   "",
   "    public void send(String text) \x7b",
   "        for (char c : text.toCharArray()) \x7b",
   "            int code = KeyEvent.getExtendedKeyCodeForChar(c);",
   "            if (code == KeyEvent.VK_UNDEFINED) \x7b",
   "                continue;",
   "            \x7d",
   "            if (Character.isUpperCase(c)) \x7b",
   "                keyCombo(KeyEvent.VK_SHIFT, code);",
   "            \x7d else \x7b",
   "                keyPress(code);",
   "            \x7d",
   "        \x7d",
   "    \x7d",
   "",
   "    /* ---- dialogs and output ---- */",
   "",
   "    public void print(String s) \x7b",
   "        System.out.println(s);",
   "    \x7d",
   "",
   "    public void print(int i) \x7b",
   "        System.out.println(i);",
   "    \x7d",
   "",
   "    public void print(double d) \x7b",
   "        System.out.println(d);",
   "    \x7d",
   "",
   "    public void print(Object o) \x7b",
   "        System.out.println(o);",
   "    \x7d",
   "",
   "    public void msgBox(String text) \x7b",
   "        JOptionPane.showMessageDialog(null, text);",
   "    \x7d",
   "",
   "    public void msgBox(String text, String title) \x7b",
   "        JOptionPane.showMessageDialog(null, text, title, JOptionPane.INFORMATION_MESSAGE);",
   "    \x7d",
   "",
   "    public String inputBox(String prompt) \x7b",
   "        return JOptionPane.showInputDialog(null, prompt);",
   "    \x7d",
   "",
   "    /* ---- files ---- */",
   "",
   "    public String fileRead(String path) \x7b",
   "        StringBuilder data = new StringBuilder();",
   "        try \x7b",
   "            BufferedReader reader = new BufferedReader(new FileReader(path));",
   "            String line = reader.readLine();",
   "            while (line != null) \x7b",
   "                data.append(line).append('\\n');",
   "                line = reader.readLine();",
   "            \x7d",
   "            reader.close();",
   "        \x7d catch (IOException e) \x7b",
   "            throw new RuntimeException(e);",
   "        \x7d",
   "        return data.toString();",
   "    \x7d",
   "",
   "    public void fileWrite(String path, String data) \x7b",
   "        try \x7b",
   "            FileWriter writer = new FileWriter(path);",
   "            writer.write(data);",
   "            writer.close();",
   "        \x7d catch (IOException e) \x7b",
   "            throw new RuntimeException(e);",
   "        \x7d",
   "    \x7d",
   "",
   "    public boolean fileExists(String path) \x7b",
   "        return new File(path).exists();",
   "    \x7d",
   "",
   "    /* ---- clipboard ---- */",
   "",
   "    public String clipboardGet() \x7b",
   "        try \x7b",
   "            return (String) Toolkit.getDefaultToolkit().getSystemClipboard()"
     ++ ".getData(DataFlavor.stringFlavor);",
   "        \x7d catch (Exception e) \x7b",
   "            return \"\";",
   "        \x7d",
   "    \x7d",
   "",
   "    public void clipboardSet(String text) \x7b",
   "        Toolkit.getDefaultToolkit().getSystemClipboard()"
     ++ ".setContents(new StringSelection(text), null);",
   "    \x7d",
   "",
   "    /* ---- clock and misc ---- */",
   "",
   "    public String getTime() \x7b",
   "        return new SimpleDateFormat(TIME_FORMAT).format(new Date());",
   "    \x7d",
   "",
   "    public long timerInit() \x7b",
   "        return System.currentTimeMillis();",
   "    \x7d",
   "",
   "    public long timerDiff(long start) \x7b",
   "        return System.currentTimeMillis() - start;",
   "    \x7d",
   "",
   "    public int random(int min, int max) \x7b",
   "        return min + generator.nextInt(max - min + 1);",
   "    \x7d",
   "",
   "    public void execute(String command) \x7b",
   "        try \x7b",
   "            Runtime.getRuntime().exec(command);",
   "        \x7d catch (IOException e) \x7b",
   "            throw new RuntimeException(e);",
   "        \x7d",
   "    \x7d",
   "\x7d"]

/-- The source of the bundled library. -/
def bundledLibrary : Text :=
  bundledLines.flatMap fun line => line.toList ++ ['\n']

/-- The catalog of the bundled library. -/
def Catalog.bundled : Except Failure Catalog :=
  (Catalog.ofLibrary bundledLibrary).mapError (.during .miningBundledLibrary)

end ScriptLoom
